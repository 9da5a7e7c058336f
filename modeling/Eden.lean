import Eden.ExceptReasoning
import Eden.SortedTable
import Eden.TransactionRuns
import Eden.ChainPrimitives
import Eden.ElectionPlan
import Eden.ContractState
import Eden.Runtime
import Eden.AccountTables
import Eden.MemberTable
import Eden.DistributionTables
import Eden.BylawsRules
import Eden.ElectionRounds
import Eden.ElectionPhases
import Eden.InductionTables
import Eden.InductionChanges
import Eden.Maintenance
import Eden.ContractActions
import Eden.Transactions
import Eden.HostFunctions
import Eden.ContractSteps
import Eden.ActionSteps
import Eden.TreasuryFunds
import Eden.LedgerConservation
import Eden.Electorate
import Eden.MemberStatistics
import Eden.ElectionSchedule
import Eden.InductionSteps
import Eden.BoardMembership
import Eden.BylawsQuorum
import Eden.BylawsHistory
import Eden.BylawsPromotion
import Eden.EndorsedContents
import Eden.InvitedMembers
import Eden.InductionEdits
import Eden.UniqueEndorsers
import Eden.EndorsementCounts
import Eden.GenesisRemovals
import Eden.SeedSubmissions
import Eden.LowerBound
import Eden.BlockLog
import Eden.LinkedBlocks
import Eden.UndoStack
import Eden.UndoTables
import Eden.UndoSessions
import Eden.UndoSteps
import Eden.UndoRuns
import Eden.UndoDatabase
import Eden.MirrorForks
import Eden.DatabaseForks
import Eden.Synchronisation
import Eden.SynchronisedLogs
import Eden.SynchronisedRuns
import Eden.Regenesis
import Eden.MigrationStages
import Eden.AccountMigration
import Eden.MasterMigration
import Eden.MigrationSteps
import Eden.MigrationProgress
import Eden.ObjectTable
import Eden.MirrorTables
import Eden.MirrorHandlers
import Eden.Postings
import Eden.MirrorLedger
import Eden.EmittedEvents
import Eden.CallTraces
import Eden.MirroredRuns
import Eden.MirrorRenames
import Eden.FundBooks
import Eden.FundSteps
import Eden.GroupPartition
import Eden.PlannedRounds
import Eden.RankShares
import Eden.GroupWinners
import Eden.CallScopes
import Eden.ElectionDates
import Eden.MemberKeys
import Eden.SessionActions
import Eden.SessionReplay
import Eden.CatchUpLoop
import Eden.BinaryStreams
import Eden.EventBatches
import Eden.SequenceWindows
import Eden.IndexWalks
import Eden.AuctionSettlement
import Eden.MirroredNfts
import Eden.FueledRuns
import Eden.QueryTokens
import Eden.QueryEvaluation
import Eden.QuerySelections
import Eden.QueryTermination
import Eden.PagedLists
import Eden.ConnectionPages
import Eden.VotePositions
import Eden.VoteShape
import Eden.RoundProgress
import Eden.RoundGroups
import Eden.RankHistogram
import Eden.DistributionShape
import Eden.MemberShares
import Eden.RankLevels
import Eden.PoolAccounts
import Eden.FundedDistributions
import Eden.TokenContract
import Eden.TokenSupply
import Eden.TokenLedger

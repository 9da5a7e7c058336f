import Eden.ElectionPhases

/-!
Inductions of new members, their endorsements, and the meetings that go with them.
-/

namespace Eden.InductionTables

open Eden.ExceptReasoning
open Eden.SortedTable
open Eden.ChainPrimitives
open Eden.ContractState
open Eden.Runtime
open Eden.MemberTable
open Eden.BylawsRules

/-! ### `encrypt` -/

/-- `encrypt::set` -/
def setEncrypted (t : EncryptedTable) (id : Nat) (keys : List EncryptedKey) (data : Bytes)
    (oldData : Option Bytes) : Outcome EncryptedTable :=
  match t.find? id with
  | none => do
      check oldData.isNone "Encrypted data not previously set"
      expect (t.emplace? ⟨id, keys, data⟩) .duplicateKey
  | some row => do
      check (oldData = some row.data) "Encrypted data does not match"
      return t.replace ⟨id, keys, data⟩

/-! ### Rows -/

def getInduction (t : Inductions) (id : Nat) : Outcome Induction :=
  getRow (t.inductions.find? id) "unable to find induction"

def getEndorsedInduction (t : Inductions) (invitee : Name) : Outcome Induction := do
  let row ← getRow (t.endorsed.find? invitee)
    ("unable to find endorsed induction for " ++ nameString invitee)
  getInduction t row.inductionId

/-- The endorsements of an induction, in the order of the index `byinduction`. -/
def endorsementsOf (t : Inductions) (id : Nat) : List Endorsement :=
  t.endorsements.rows.filter fun e => e.inductionId = id

def getEndorsers (t : Inductions) (id : Nat) : List Name :=
  (endorsementsOf t id).map Endorsement.endorser

def isEndorser (t : Inductions) (id : Nat) (witness : Name) : Bool :=
  t.endorsements.rows.any fun e => e.endorser = witness && e.inductionId = id

def isInvitee (t : Inductions) (id : Nat) (invitee : Name) : Outcome Bool := do
  let induction ← getInduction t id
  return induction.invitee = invitee

def hasInduction (t : Inductions) (invitee : Name) : Bool :=
  t.inductions.rows.any fun i => i.invitee = invitee

/-- `is_valid_induction`: the lifetime in whole seconds, truncated towards 0. -/
def isValidInduction (now : Nat) (induction : Induction) : Bool :=
  (toTimePoint now - toTimePoint induction.createdAt).tdiv 1000000 ≤ inductionExpirationSecs

def checkValidInduction (now : Nat) (induction : Induction) : Outcome Unit :=
  check (isValidInduction now induction) "induction has expired"

def createInduction (t : Inductions) (now id : Nat) (inviter invitee : Name) (endorsements : Nat)
    (video : Text) : Outcome Inductions := do
  let row : Induction := ⟨id, inviter, invitee, endorsements, now, video, {}⟩
  return { t with inductions := ← expect (t.inductions.emplace? row) .duplicateKey }

/-- `endorsement_tb.available_primary_key()` -/
def nextEndorsementId (t : Inductions) : Nat :=
  match t.endorsements.rows.getLast? with
  | none => 0
  | some last => last.id + 1

def createEndorsement (t : Inductions) (inviter invitee endorser : Name) (inductionId : Nat)
    (endorsed : Bool) : Outcome Inductions := do
  let row : Endorsement := ⟨nextEndorsementId t, inviter, invitee, endorser, inductionId, endorsed⟩
  return { t with endorsements := ← expect (t.endorsements.emplace? row) .duplicateKey }

/-- Create the endorsements of a list of endorsers, in order. -/
def createEndorsements (t : Inductions) (inviter invitee : Name) (inductionId : Nat)
    (endorsers : List Name) : Outcome Inductions :=
  endorsers.foldlM
    (fun t endorser => createEndorsement t inviter invitee endorser inductionId false) t

def addEndorsement (t : Inductions) (induction : Induction) (endorser : Name) (endorsed : Bool) :
    Outcome Inductions :=
  let counted := { induction with endorsements := (induction.endorsements + 1) % 2 ^ 32 }
  createEndorsement { t with inductions := t.inductions.replace counted }
    induction.inviter induction.invitee endorser induction.id endorsed

/-! ### Life of an induction -/

def checkNewInduction (t : Inductions) (invitee inviter : Name) : Outcome Unit :=
  check (!t.inductions.rows.any fun i => i.invitee = invitee && i.inviter = inviter)
    "induction for this invitation is already in progress"

def checkValidEndorsers (inviter : Name) (witnesses : List Name) : Outcome Unit := do
  check (2 ≤ witnesses.length && witnesses.length ≤ 5)
    "2 to 5 witnesses are required for induction"
  check (witnesses.dedup.length = witnesses.length) "the witnesses list has a duplicated entry"
  check (inviter ∉ witnesses) "inviter cannot be in the witnesses list"

def initializeInduction (env : Env) (t : Inductions) (now id : Nat) (inviter invitee : Name)
    (witnesses : List Name) : Outcome Inductions := do
  checkNewInduction t invitee inviter
  checkValidEndorsers inviter witnesses
  check (env.isAccount invitee) ("Account " ++ nameString invitee ++ " does not exist")
  let t ← createInduction t now id inviter invitee (witnesses.length + 1) []
  createEndorsements t inviter invitee id (inviter :: witnesses)

def updateExpiration (t : Inductions) (now : Nat) (induction : Induction) (newExpiration : Int) :
    Outcome Inductions := do
  let newCreatedAt := ofTimePoint (newExpiration - seconds inductionExpirationSecs)
  check (toTimePoint now ≤ newExpiration) "New expiration is in the past"
  check ((newExpiration - toTimePoint now).tdiv 1000000 ≤ inductionExpirationSecs)
    "New expiration is too far in the future"
  return { t with inductions := t.inductions.replace { induction with createdAt := newCreatedAt } }

/-- Set `endorsed` in all endorsements of an induction. -/
def setEndorsed (t : Inductions) (id : Nat) (endorsed : Bool) : Inductions :=
  let update (e : Endorsement) : Endorsement :=
    if e.inductionId = id then { e with endorsed := endorsed } else e
  have hid : ∀ e, (update e).id = e.id := fun e => by
    simp only [update]
    split <;> rfl
  { t with endorsements := t.endorsements.update update hid }

def resetEndorsements (t : Inductions) (id : Nat) : Inductions := setEndorsed t id false

def endorseAll (t : Inductions) (id : Nat) : Inductions := setEndorsed t id true

def validateProfile (p : Platform) (profile : NewMemberProfile) : Outcome Unit := do
  check (profile.name ≠ []) "new member profile name is empty"
  validateIpfs p profile.img
  check (profile.bio ≠ []) "new member profile bio is empty"

def updateProfile (p : Platform) (t : Inductions) (now : Nat) (induction : Induction)
    (profile : NewMemberProfile) : Outcome Inductions := do
  checkValidInduction now induction
  validateProfile p profile
  let changed := { induction with newMemberProfile := profile }
  return resetEndorsements { t with inductions := t.inductions.replace changed } induction.id

def updateVideo (p : Platform) (t : Inductions) (now : Nat) (induction : Induction)
    (video : Text) : Outcome Inductions := do
  checkValidInduction now induction
  validateIpfs p video
  let changed := { induction with video := video }
  return resetEndorsements { t with inductions := t.inductions.replace changed } induction.id

/-- A number in base 128, the lowest digit first, as `varuint32` writes it. -/
def varuint32 : (fuel : Nat) → Nat → Bytes
  | 0, _ => []
  | fuel + 1, n => if n < 128 then [UInt8.ofNat n] else UInt8.ofNat (n % 128 + 128) ::
      varuint32 fuel (n / 128)

/-- A text in binary form: its length and its bytes. -/
def packText (t : Text) : Bytes := varuint32 5 t.length ++ textBytes t

/-- The binary form of a video and a profile. -/
def inductionBytes (induction : Induction) : Bytes :=
  let profile := induction.newMemberProfile
  packText induction.video ++ packText profile.name ++ packText profile.img ++
    packText profile.bio ++ packText profile.social ++ packText profile.attributions

def endorse (p : Platform) (t : Inductions) (now : Nat) (induction : Induction) (account : Name)
    (inductionDataHash : Checksum) : Outcome Inductions := do
  checkValidInduction now induction
  check (induction.video ≠ []) "Video not set"
  check (induction.newMemberProfile.name ≠ []) "Profile not set"
  check (p.sha256 (inductionBytes induction) = inductionDataHash) "Outdated endorsement"
  let endorsement ← getRow
    (t.endorsements.rows.find? fun e => e.endorser = account && e.inductionId = induction.id)
    ("unable to find endorsement for endorser " ++ nameString account)
  check (!endorsement.endorsed) "Already endorsed"
  return { t with endorsements := t.endorsements.replace { endorsement with endorsed := true } }

def checkIsFullyEndorsed (t : Inductions) (id : Nat) : Outcome Unit :=
  check ((endorsementsOf t id).all Endorsement.endorsed) "induction is not fully endorsed"

/-- `erase_induction` -/
def eraseInduction (t : Inductions) (induction : Induction) : Inductions :=
  { t with
    endorsements := (endorsementsOf t induction.id).foldl
      (fun endorsements e => endorsements.erase e.id) t.endorsements
    endorsed := t.endorsed.erase induction.invitee
    encrypted := t.encrypted.erase induction.id
    inductions := t.inductions.erase induction.id }

/-- `get_invitee_inviter` -/
def inviteeInviter (i : Induction) : Nat := combineNames i.invitee i.inviter

/-- Erase inductions of a list while the limit lasts. -/
def eraseInductions : List Induction → (limit : Nat) → Inductions → Nat × Inductions
  | [], limit, t => (limit, t)
  | _ :: _, 0, t => (0, t)
  | induction :: rest, limit + 1, t => eraseInductions rest limit (eraseInduction t induction)

def eraseByInductee (t : Inductions) (invitee : Name) (limit : Nat) : Nat × Inductions :=
  eraseInductions ((t.inductions.index inviteeInviter).filter fun i => i.invitee = invitee) limit t

/-- The loop of `erase_expired`: the limit left, the invitees without an induction and the
tables. -/
def eraseExpiredFrom (now : Nat) : List Induction → (limit : Nat) → List Name → Inductions →
    Nat × List Name × Inductions
  | [], limit, removed, t => (limit, removed, t)
  | _ :: _, 0, removed, t => (0, removed, t)
  | induction :: rest, limit + 1, removed, t =>
      if isValidInduction now induction then (limit + 1, removed, t)
      else
        let t := eraseInduction t induction
        let removed :=
          if hasInduction t induction.invitee then removed else removed ++ [induction.invitee]
        eraseExpiredFrom now rest limit removed t

def eraseExpired (t : Inductions) (now limit : Nat) : Nat × List Name × Inductions :=
  eraseExpiredFrom now (t.inductions.index Induction.createdAt) limit [] t

/-- The loop of `inductions::gc` over the queued invitees. -/
def gcInvitees : List Name → (limit : Nat) → Inductions → Nat × Inductions
  | [], limit, t => (limit, t)
  | invitee :: rest, limit, t =>
      if limit = 0 then (0, t)
      else
        let (limit, t) := eraseByInductee t invitee limit
        if limit = 0 then (0, t)
        else gcInvitees rest (limit - 1) { t with gc := t.gc.erase invitee }

/-- `inductions::gc`: the limit left, the removed members and the tables. -/
def gcInductions (t : Inductions) (now limit : Nat) : Nat × List Name × Inductions :=
  let (limit, removed, t) := eraseExpired t now limit
  let (limit, t) := gcInvitees t.gc.rows limit t
  (limit, removed, t)

def queueGc (t : Inductions) (invitee : Name) : Outcome Inductions := do
  return { t with gc := ← expect (t.gc.emplace? invitee) .duplicateKey }

/-- Take an endorsement of a removed genesis member out. -/
def eraseEndorsement (t : Inductions) (e : Endorsement) : Outcome Inductions := do
  let induction ← getRow (t.inductions.find? e.inductionId) "unable to find key"
  let endorsements := (induction.endorsements + (2 ^ 32 - 1)) % 2 ^ 32
  check (0 < endorsements)
    ("Not enough remaining endorsers.  It should be safe to clear the contract, " ++
      "however, as this should only happen if no NFTs have been issued yet...")
  return { t with
    inductions := t.inductions.replace { induction with endorsements := endorsements }
    endorsements := t.endorsements.erase e.id }

/-- `get_endorser_key` -/
def endorserKey (e : Endorsement) : Nat := e.endorser * 2 ^ 64 + e.inductionId

def eraseEndorser (t : Inductions) (endorser : Name) : Outcome Inductions :=
  ((t.endorsements.index endorserKey).filter fun e => e.endorser = endorser).foldlM
    eraseEndorsement t

/-- `inductions::on_rename` -/
def renameEndorser (t : Inductions) (oldAccount newAccount : Name) : Outcome Inductions := do
  check (!hasInduction t oldAccount) "Cannot rename: gc required"
  let update (e : Endorsement) : Endorsement :=
    if e.endorser = oldAccount then { e with endorser := newAccount } else e
  have hid : ∀ e, (update e).id = e.id := fun e => by
    simp only [update]
    split <;> rfl
  check (!t.inductions.rows.any fun i => i.inviter = oldAccount)
    "Cannot rename an account that is the inviter of a pending invitation"
  return { t with endorsements := t.endorsements.update update hid }

/-! ### Inline actions of an induction -/

/-- `start_auction` and `add_auction` for the asset of the contract. -/
def startAuction (g : Globals) (s : State) (assetId : Nat) : Outcome State := do
  let s := perform s (.announceauct assetId g.auctionStartingBid g.auctionDuration)
  let s := perform s (.transferAsset assetId)
  let endTime := secOfTimePoint (toTimePoint s.now + seconds g.auctionDuration)
  let auctions ← expect (s.auctions.emplace? ⟨assetId, endTime⟩) .duplicateKey
  return { s with auctions := auctions }

/-- `notify_logmint`; `account` is the attribute of the template. -/
def notifyLogmint (p : Platform) (s : State) (assetId : Nat)
    (authorizedMinter collectionName schemaName newAssetOwner : Name) (account : Option Text) :
    Outcome State :=
  if newAssetOwner ≠ p.self then return s
  else do
    check (authorizedMinter = p.self) "Wrong authorized creator"
    check (collectionName = p.self) "Wrong collection"
    check (schemaName = p.schemaName) "Wrong schema"
    let account ← expect account (.check "Missing account logmint")
    let invitee ← nameOfText account
    let g ← getGlobals s
    let _ ← getEndorsedInduction s.inductions invitee
    startAuction g s assetId

/-- Mint an asset of the contract: `atomicassets` notifies the contract. -/
def mintNft (p : Platform) (s : State) (templateId : Int) (account : Text) (assetId : Nat)
    (newAssetOwner : Name) : Outcome State :=
  notifyLogmint p (perform s (.mintasset templateId newAssetOwner)) assetId p.self p.self
    p.schemaName newAssetOwner (some account)

/-- Mint an asset for each owner; `atomicassets` numbers its assets one after the other. -/
def mintNfts (p : Platform) (env : Env) (s : State) (templateId : Int) (account : Text)
    (newOwners : List Name) : Outcome State :=
  newOwners.zipIdx.foldlM
    (fun s owner => mintNft p s templateId account (env.assetId + owner.2) owner.1) s

/-- `notify_lognewtempl`; the mints of `create_nfts` follow when it has run. -/
def notifyLognewtempl (p : Platform) (env : Env) (s : State) (templateId : Int)
    (authorizedCreator collectionName schemaName : Name) (account : Option Text) :
    Outcome State := do
  check (authorizedCreator = p.self) "Wrong authorized creator"
  check (collectionName = p.self) "Wrong collection"
  check (schemaName = p.schemaName) "Wrong schema"
  let account ← expect account (.check "Missing account lognewtempl")
  let invitee ← nameOfText account
  let _ ← getGlobals s
  let induction ← getEndorsedInduction s.inductions invitee
  let newOwners := p.self :: induction.invitee :: getEndorsers s.inductions induction.id
  let members ← setNft s.members invitee templateId
  mintNfts p env { s with members := members } templateId account newOwners

/-- The first part of `create_nft`: the row that the inline actions look up. -/
def endorseInduction (t : Inductions) (induction : Induction) : Outcome Inductions := do
  checkIsFullyEndorsed t induction.id
  return { t with
    endorsed := ← expect (t.endorsed.emplace? ⟨induction.invitee, induction.id⟩) .duplicateKey }

/-- The template of a new member: `atomicassets` creates it and notifies the contract. -/
def createTemplate (p : Platform) (env : Env) (g : Globals) (s : State) (induction : Induction) :
    Outcome State :=
  let maxSupply := if g.stage = .genesis then 0 else (induction.endorsements + 2) % 2 ^ 32
  let account := nameToText induction.invitee
  notifyLognewtempl p env (perform s (.createtempl maxSupply account)) env.templateId p.self p.self
    p.schemaName (some account)

/-! ### What the functions change -/

/-- No induction becomes endorsed. -/
def NoneEndorsed (t t' : Inductions) : Prop :=
  ∀ row ∈ t'.endorsed.rows, row ∈ t.endorsed.rows

theorem NoneEndorsed.refl (t : Inductions) : NoneEndorsed t t := fun _ hrow => hrow

theorem NoneEndorsed.of_eq {t t' : Inductions} (h : t'.endorsed = t.endorsed) :
    NoneEndorsed t t' := fun _ hrow => h ▸ hrow

theorem NoneEndorsed.trans {t₁ t₂ t₃ : Inductions} (h₁ : NoneEndorsed t₁ t₂)
    (h₂ : NoneEndorsed t₂ t₃) : NoneEndorsed t₁ t₃ := fun row hrow => h₁ row (h₂ row hrow)

theorem createInduction_endorsed {t t' : Inductions} {now id : Nat} {inviter invitee : Name}
    {endorsements : Nat} {video : Text}
    (h : createInduction t now id inviter invitee endorsements video = .ok t') :
    t'.endorsed = t.endorsed := by
  simp only [createInduction, bind_eq_ok, expect_eq_ok, pure_eq_ok] at h
  obtain ⟨_, _, rfl⟩ := h
  rfl

theorem createEndorsement_endorsed {t t' : Inductions} {inviter invitee endorser : Name}
    {inductionId : Nat} {endorsed : Bool}
    (h : createEndorsement t inviter invitee endorser inductionId endorsed = .ok t') :
    t'.endorsed = t.endorsed := by
  simp only [createEndorsement, bind_eq_ok, expect_eq_ok, pure_eq_ok] at h
  obtain ⟨_, _, rfl⟩ := h
  rfl

theorem createEndorsements_endorsed {t t' : Inductions} {inviter invitee : Name}
    {inductionId : Nat} {endorsers : List Name}
    (h : createEndorsements t inviter invitee inductionId endorsers = .ok t') :
    t'.endorsed = t.endorsed :=
  foldlM_preserves (fun u : Inductions => u.endorsed = t.endorsed)
    (fun _ _ _ hstep hu => (createEndorsement_endorsed hstep).trans hu) endorsers h rfl

theorem addEndorsement_endorsed {t t' : Inductions} {induction : Induction} {endorser : Name}
    {endorsed : Bool} (h : addEndorsement t induction endorser endorsed = .ok t') :
    t'.endorsed = t.endorsed := by
  have hsame : t'.endorsed = _ := createEndorsement_endorsed h
  exact hsame

theorem initializeInduction_endorsed {env : Env} {t t' : Inductions} {now id : Nat}
    {inviter invitee : Name} {witnesses : List Name}
    (h : initializeInduction env t now id inviter invitee witnesses = .ok t') :
    env.isAccount invitee = true ∧ t'.endorsed = t.endorsed := by
  simp only [initializeInduction, bind_eq_ok, check_eq_ok, exists_const] at h
  obtain ⟨_, _, _, _, haccount, u, hu, h⟩ := h
  exact ⟨haccount, (createEndorsements_endorsed h).trans (createInduction_endorsed hu)⟩

theorem updateExpiration_endorsed {t t' : Inductions} {now : Nat} {induction : Induction}
    {newExpiration : Int} (h : updateExpiration t now induction newExpiration = .ok t') :
    t'.endorsed = t.endorsed := by
  simp only [updateExpiration, bind_eq_ok, check_eq_ok, exists_const, pure_eq_ok] at h
  obtain ⟨_, _, rfl⟩ := h
  rfl

theorem updateProfile_endorsed {p : Platform} {t t' : Inductions} {now : Nat}
    {induction : Induction} {profile : NewMemberProfile}
    (h : updateProfile p t now induction profile = .ok t') : t'.endorsed = t.endorsed := by
  simp only [updateProfile, bind_eq_ok, pure_eq_ok] at h
  obtain ⟨_, _, _, _, rfl⟩ := h
  rfl

theorem updateVideo_endorsed {p : Platform} {t t' : Inductions} {now : Nat} {induction : Induction}
    {video : Text} (h : updateVideo p t now induction video = .ok t') :
    t'.endorsed = t.endorsed := by
  simp only [updateVideo, bind_eq_ok, pure_eq_ok] at h
  obtain ⟨_, _, _, _, rfl⟩ := h
  rfl

theorem endorse_endorsed {p : Platform} {t t' : Inductions} {now : Nat} {induction : Induction}
    {account : Name} {hash : Checksum} (h : endorse p t now induction account hash = .ok t') :
    t'.endorsed = t.endorsed := by
  simp only [endorse, bind_eq_ok, check_eq_ok, exists_const, getRow_eq_ok, pure_eq_ok] at h
  obtain ⟨_, _, _, _, _, _, _, _, rfl⟩ := h
  rfl

theorem eraseInduction_endorsed (t : Inductions) (induction : Induction) :
    NoneEndorsed t (eraseInduction t induction) := fun _ hrow => (Table.mem_erase.mp hrow).1

theorem eraseInductions_endorsed (rows : List Induction) (limit : Nat) (t : Inductions) :
    NoneEndorsed t (eraseInductions rows limit t).2 := by
  fun_induction eraseInductions rows limit t with
  | case1 limit t => exact NoneEndorsed.refl t
  | case2 _ _ t => exact NoneEndorsed.refl t
  | case3 induction rest limit t ih => exact (eraseInduction_endorsed t induction).trans ih

theorem eraseByInductee_endorsed (t : Inductions) (invitee : Name) (limit : Nat) :
    NoneEndorsed t (eraseByInductee t invitee limit).2 := eraseInductions_endorsed _ _ _

theorem eraseExpiredFrom_endorsed (now : Nat) (rows : List Induction) (limit : Nat)
    (removed : List Name) (t : Inductions) :
    NoneEndorsed t (eraseExpiredFrom now rows limit removed t).2.2 := by
  fun_induction eraseExpiredFrom now rows limit removed t with
  | case1 _ _ t => exact NoneEndorsed.refl t
  | case2 _ _ _ t => exact NoneEndorsed.refl t
  | case3 _ _ _ _ t _ => exact NoneEndorsed.refl t
  | case4 induction rest limit removed t _ _ _ ih =>
      exact (eraseInduction_endorsed t induction).trans ih

theorem gcInvitees_endorsed (invitees : List Name) (limit : Nat) (t : Inductions) :
    NoneEndorsed t (gcInvitees invitees limit t).2 := by
  fun_induction gcInvitees invitees limit t with
  | case1 _ t => exact NoneEndorsed.refl t
  | case2 _ _ t => exact NoneEndorsed.refl t
  | case3 invitee rest limit t _ t' heq =>
      have hstep := eraseByInductee_endorsed t invitee limit
      rw [heq] at hstep
      exact hstep
  | case4 invitee rest limit t _ limit' t' heq _ ih =>
      have hstep := eraseByInductee_endorsed t invitee limit
      rw [heq] at hstep
      exact hstep.trans ih

theorem gcInductions_endorsed (t : Inductions) (now limit : Nat) :
    NoneEndorsed t (gcInductions t now limit).2.2 :=
  (eraseExpiredFrom_endorsed now _ limit [] t).trans (gcInvitees_endorsed _ _ _)

theorem queueGc_endorsed {t t' : Inductions} {invitee : Name} (h : queueGc t invitee = .ok t') :
    t'.endorsed = t.endorsed := by
  simp only [queueGc, bind_eq_ok, expect_eq_ok, pure_eq_ok] at h
  obtain ⟨_, _, rfl⟩ := h
  rfl

theorem eraseEndorser_endorsed {t t' : Inductions} {endorser : Name}
    (h : eraseEndorser t endorser = .ok t') : t'.endorsed = t.endorsed := by
  refine foldlM_preserves (fun u : Inductions => u.endorsed = t.endorsed) ?_ _ h rfl
  intro u e u' hstep hu
  simp only [eraseEndorsement, bind_eq_ok, getRow_eq_ok, check_eq_ok, exists_const,
    pure_eq_ok] at hstep
  obtain ⟨_, _, _, rfl⟩ := hstep
  exact hu

theorem renameEndorser_endorsed {t t' : Inductions} {oldAccount newAccount : Name}
    (h : renameEndorser t oldAccount newAccount = .ok t') : t'.endorsed = t.endorsed := by
  simp only [renameEndorser, bind_eq_ok, check_eq_ok, exists_const, pure_eq_ok] at h
  obtain ⟨_, _, rfl⟩ := h
  rfl

theorem getEndorsedInduction_eq_ok {t : Inductions} {invitee : Name} {induction : Induction}
    (h : getEndorsedInduction t invitee = .ok induction) :
    ∃ row ∈ t.endorsed.rows, row.invitee = invitee := by
  simp only [getEndorsedInduction, bind_eq_ok, getRow_eq_ok] at h
  obtain ⟨row, hrow, _⟩ := h
  exact ⟨row, Table.mem_of_find? hrow, Table.key_of_find? hrow⟩

theorem endorseInduction_endorsed {t t' : Inductions} {induction : Induction}
    (h : endorseInduction t induction = .ok t') :
    ∀ row ∈ t'.endorsed.rows, row ∈ t.endorsed.rows ∨ row.invitee = induction.invitee := by
  simp only [endorseInduction, bind_eq_ok, expect_eq_ok, pure_eq_ok] at h
  obtain ⟨_, _, endorsed, hemplace, rfl⟩ := h
  intro row hrow
  rcases (Table.mem_emplace? hemplace).mp hrow with rfl | hrow
  · exact .inr rfl
  · exact .inl hrow

/-- An output that has only grown by actions of other contracts. -/
def Silent (out out' : Output) : Prop :=
  Quiet out out' ∧ out'.serializedEvents = out.serializedEvents

theorem Silent.refl (out : Output) : Silent out out := ⟨Quiet.refl out, rfl⟩

theorem Silent.trans {o₁ o₂ o₃ : Output} (h₁ : Silent o₁ o₂) (h₂ : Silent o₂ o₃) : Silent o₁ o₃ :=
  ⟨h₁.1.trans h₂.1, h₂.2.trans h₁.2⟩

theorem Silent.sendAction (out : Output) (a : External) : Silent out (sendAction out a) :=
  ⟨Quiet.sendAction out a, rfl⟩

theorem notifyLogmint_eq_ok {p : Platform} {s s' : State} {assetId : Nat}
    {minter collection schema owner : Name} {account : Option Text}
    (h : notifyLogmint p s assetId minter collection schema owner account = .ok s') :
    ∃ o auctions, Silent s.output o ∧ s' = { s with output := o, auctions := auctions } := by
  unfold notifyLogmint at h
  split at h
  · simp only [pure_eq_ok] at h
    exact ⟨s.output, s.auctions, Silent.refl _, h.symm⟩
  · simp only [startAuction, bind_eq_ok, check_eq_ok, exists_const, expect_eq_ok,
      pure_eq_ok] at h
    obtain ⟨_, _, _, _, _, _, _, _, _, _, _, auctions, _, rfl⟩ := h
    exact ⟨_, auctions, (Silent.sendAction s.output _).trans (Silent.sendAction _ _), rfl⟩

theorem mintNft_eq_ok {p : Platform} {s s' : State} {templateId : Int} {account : Text}
    {assetId : Nat} {owner : Name} (h : mintNft p s templateId account assetId owner = .ok s') :
    ∃ o auctions, Silent s.output o ∧ s' = { s with output := o, auctions := auctions } := by
  obtain ⟨o, auctions, hquiet, rfl⟩ := notifyLogmint_eq_ok h
  exact ⟨o, auctions, (Silent.sendAction s.output _).trans hquiet, rfl⟩

/-- Folding steps that change only the output and the auctions changes only these. -/
theorem foldlM_auctions {α : Type} {step : State → α → Outcome State}
    (hstep : ∀ s a s', step s a = .ok s' → ∃ o auctions, Silent s.output o ∧
      s' = { s with output := o, auctions := auctions })
    (l : List α) {s s' : State} (h : l.foldlM step s = .ok s') :
    ∃ o auctions, Silent s.output o ∧ s' = { s with output := o, auctions := auctions } := by
  refine foldlM_preserves (fun t : State => ∃ o auctions, Silent s.output o ∧
    t = { s with output := o, auctions := auctions }) ?_ l h
    ⟨s.output, s.auctions, Silent.refl _, rfl⟩
  rintro _ a t' hstep' ⟨o, auctions, hquiet, rfl⟩
  obtain ⟨o', auctions', hquiet', rfl⟩ := hstep _ a t' hstep'
  exact ⟨o', auctions', hquiet.trans hquiet', rfl⟩

theorem notifyLognewtempl_eq_ok {p : Platform} {env : Env} {s s' : State} {templateId : Int}
    {creator collection schema : Name} {account : Option Text}
    (h : notifyLognewtempl p env s templateId creator collection schema account = .ok s') :
    ∃ o auctions invitee, Silent s.output o ∧
      s' = { s with
        output := o
        auctions := auctions
        members := modifyMember s.members invitee fun row =>
          { row with nftTemplateId := templateId % 2 ^ 64 } } := by
  simp only [notifyLognewtempl, mintNfts, setNft, bind_eq_ok, check_eq_ok, exists_const,
    expect_eq_ok, pure_eq_ok] at h
  obtain ⟨_, _, _, _, _, invitee, _, _, _, induction, _, _, ⟨_, _, rfl⟩, h⟩ := h
  obtain ⟨o, auctions, hquiet, rfl⟩ := foldlM_auctions (fun _ _ _ hmint => mintNft_eq_ok hmint) _ h
  exact ⟨o, auctions, invitee, hquiet, rfl⟩

theorem createTemplate_eq_ok {p : Platform} {env : Env} {g : Globals} {s s' : State}
    {induction : Induction} (h : createTemplate p env g s induction = .ok s') :
    ∃ o auctions invitee, Silent s.output o ∧
      s' = { s with
        output := o
        auctions := auctions
        members := modifyMember s.members invitee fun row =>
          { row with nftTemplateId := env.templateId % 2 ^ 64 } } := by
  obtain ⟨o, auctions, invitee, hquiet, rfl⟩ := notifyLognewtempl_eq_ok h
  exact ⟨o, auctions, invitee, (Silent.sendAction s.output _).trans hquiet, rfl⟩

end Eden.InductionTables

import Eden.HostFunctions
import Eden.MirrorHandlers

/-!
The assets of members in the micro chain. The search of a mint for the attribute `account` goes from
the start of one list to the end of another one.
-/

namespace Eden.MirroredNfts

open Eden.ExceptReasoning
open Eden.ObjectTable
open Eden.ObjectTable.Objects
open Eden.ChainPrimitives
open Eden.ContractState
open Eden.Runtime
open Eden.MirrorTables
open Eden.MirrorHandlers
open Eden.HostFunctions

variable {p : Platform} {db db' : Database}

/-! ### Notifications -/

/-- What `atomicassets` notifies the contract of. -/
inductive Notification
  | logmint (time : Nat) (m : Mint)
  | logtransfer (collectionName receiver : Name) (assetIds : List Nat)

def notify (p : Platform) (db : Database) : Notification → Outcome Database
  | .logmint time m => logmint p time db m
  | .logtransfer collectionName receiver assetIds =>
      return logtransfer p db collectionName receiver assetIds

def notifyAll (p : Platform) (db : Database) (l : List Notification) : Outcome Database :=
  l.foldlM (notify p) db

/-- The contract mints an asset of its collection and schema. -/
def isEden (p : Platform) (m : Mint) : Bool :=
  m.authorizedMinter = p.self ∧ m.collectionName = p.self ∧ m.schemaName = p.schemaName

/-- The attribute `account` of the template. -/
def accountOf (m : Mint) : Option AttributeValue :=
  (m.immutableTemplateData.find? fun a => a.1 = accountKey).map Prod.snd

/-- The account that an attribute names. -/
def nameIn : AttributeValue → Option Name
  | .string value => (nameOfText value).toOption
  | .other => none

/-- The member of an asset of the contract. -/
def memberOf (p : Platform) (m : Mint) : Option Name :=
  if isEden p m then (accountOf m).bind nameIn else none

/-- An asset of a member is minted. -/
def mints (p : Platform) (member : Name) : Notification → Bool
  | .logmint _ m => memberOf p m = some member
  | .logtransfer .. => false

/-- Who gets an asset in a transfer. -/
def recipientOf (p : Platform) (assetId : Nat) : Notification → Option Name
  | .logmint .. => none
  | .logtransfer collectionName receiver assetIds =>
      if collectionName = p.self ∧ assetId ∈ assetIds then some receiver else none

/-- The owner of an asset after what follows its mint. -/
def lastOwner (p : Platform) (m : Mint) (later : List Notification) : Name :=
  ((later.filterMap (recipientOf p m.assetId)).getLast?).getD m.newAssetOwner

/-! ### The search -/

/-- The searches stay in the data of the templates: each asset that the contract mints in its
collection and schema has the attribute, or no data at all. A mint that aborts ends the
handling. -/
def StaysInside (p : Platform) : (minted : List Nat) → List Notification → Prop
  | _, [] => True
  | minted, .logtransfer .. :: rest => StaysInside p minted rest
  | minted, .logmint _ m :: rest =>
      if isEden p m then
        match accountOf m with
        | none => (m.immutableTemplateData = [] ∧ m.immutableData = []) ∧ StaysInside p minted rest
        | some value =>
            (nameIn value).isSome → m.assetId ∉ minted → StaysInside p (minted ++ [m.assetId]) rest
      else StaysInside p minted rest

/-- The search of a mint ends outside of the data of its template. -/
abbrev pastEnd : Abort := .undefined "find_if past the end"

theorem nameOfText_ne_pastEnd (t : Text) : nameOfText t ≠ .error pastEnd := by
  have hfrom : ∀ (t : Text) i value, nameOfTextFrom i t value ≠ .error pastEnd := by
    intro t
    induction t with
    | nil => exact fun i value => pure_ne_error
    | cons c rest ih =>
        intro i value
        refine bind_ne_error (by simp [pastEnd]) fun _ _ => ?_
        refine bind_ne_error ?_ fun digit _ => ?_
        · cases charToNameDigit c <;> simp [expect, pastEnd]
        · split
          · exact ih _ _
          · exact bind_ne_error (by simp [pastEnd]) fun _ _ => ih _ _
  exact hfrom t 0 0

theorem isEden_iff {m : Mint} : isEden p m = true ↔
    ¬ (m.authorizedMinter ≠ p.self ∨ m.collectionName ≠ p.self ∨ m.schemaName ≠ p.schemaName) := by
  simp [isEden]

/-- A mint of an asset of the contract, from the attribute `account` of its template. -/
theorem logmint_eden {m : Mint} (heden : isEden p m = true) (time : Nat) (db : Database) :
    logmint p time db m =
      match accountOf m with
      | none =>
          if m.immutableTemplateData = [] ∧ m.immutableData = [] then .ok db else .error pastEnd
      | some value => do
          let member ← nameOfText (← getString value)
          let nfts ← emplace db.nfts
            { member := member
              owner := m.newAssetOwner
              templateId := m.templateId
              assetId := m.assetId
              templateMint := db.nfts.rows.countP fun o => o.member = member
              createdAt := time }
          return { db with nfts := nfts } := by
  rw [logmint, if_neg (isEden_iff.mp heden), findAccount, accountOf]
  cases m.immutableTemplateData.find? fun a => a.1 = accountKey with
  | none =>
      by_cases hempty : m.immutableTemplateData = [] ∧ m.immutableData = []
      · simp only [hempty, and_self, if_true]
        rfl
      · simp only [hempty, if_false]
        rfl
  | some a => rfl

theorem logmint_other {m : Mint} (hother : isEden p m = false) (time : Nat) (db : Database) :
    logmint p time db m = .ok db := by
  have hnot : m.authorizedMinter ≠ p.self ∨ m.collectionName ≠ p.self ∨
      m.schemaName ≠ p.schemaName := by
    by_contra hall
    rw [isEden_iff.mpr hall] at hother
    cases hother
  rw [logmint, if_pos hnot]
  rfl

/-- The new row of a mint. -/
def mintedRow (db : Database) (time : Nat) (m : Mint) (member : Name) : NftObject :=
  { member := member
    owner := m.newAssetOwner
    templateId := m.templateId
    assetId := m.assetId
    templateMint := db.nfts.rows.countP fun o => o.member = member
    createdAt := time }

theorem logmint_named {m : Mint} {value : AttributeValue} {member : Name}
    (heden : isEden p m = true) (haccount : accountOf m = some value)
    (hname : nameIn value = some member) (time : Nat) (db : Database) :
    logmint p time db m =
      match db.nfts.emplace? (mintedRow db time m member) with
      | none => .error insertError
      | some nfts => .ok { db with nfts := nfts } := by
  rw [logmint_eden heden, haccount]
  cases value with
  | other => cases hname
  | string text =>
      have htext : nameOfText text = .ok member := ok_of_toOption hname
      change (nameOfText text >>= fun member =>
        emplace db.nfts (mintedRow db time m member) >>= fun nfts =>
          pure { db with nfts := nfts } : Outcome Database) = _
      rw [htext, ok_bind, emplace]
      cases db.nfts.emplace? (mintedRow db time m member) <;> rfl

theorem logmint_unnamed {m : Mint} {value : AttributeValue} (heden : isEden p m = true)
    (haccount : accountOf m = some value) (hname : nameIn value = none) (time : Nat)
    (db : Database) : ∃ e, e ≠ pastEnd ∧ logmint p time db m = .error e := by
  rw [logmint_eden heden, haccount]
  cases value with
  | other => exact ⟨.check "bad_variant_access", by simp [pastEnd], rfl⟩
  | string text =>
      cases htext : nameOfText text with
      | ok member =>
          rw [nameIn, htext] at hname
          cases hname
      | error e =>
          refine ⟨e, ?_, ?_⟩
          · rintro rfl
            exact nameOfText_ne_pastEnd text htext
          · change (nameOfText text >>= _ : Outcome Database) = _
            rw [htext]
            rfl

theorem logmint_eq_ok {time : Nat} {m : Mint} (h : logmint p time db m = .ok db') :
    (memberOf p m = none ∧ db' = db) ∨ ∃ member nfts, memberOf p m = some member ∧
      db.nfts.emplace? (mintedRow db time m member) = some nfts ∧
      db' = { db with nfts := nfts } := by
  by_cases heden : isEden p m = true
  · rw [memberOf, if_pos heden]
    cases haccount : accountOf m with
    | none =>
        rw [logmint_eden heden, haccount] at h
        simp only at h
        split at h
        · cases h
          exact .inl ⟨rfl, rfl⟩
        · cases h
    | some value =>
        cases hname : nameIn value with
        | none =>
            obtain ⟨e, -, herror⟩ := logmint_unnamed heden haccount hname time db
            rw [herror] at h
            cases h
        | some member =>
            rw [logmint_named heden haccount hname] at h
            split at h
            · cases h
            · rename_i nfts hnfts
              cases h
              exact .inr ⟨member, nfts, by rw [Option.bind_some, hname], hnfts, rfl⟩
  · rw [Bool.not_eq_true] at heden
    rw [logmint_other heden] at h
    cases h
    exact .inl ⟨by rw [memberOf, if_neg (by simp [heden])], rfl⟩

/-- The assets of a table, in the order of their mints. -/
def assetsOf (db : Database) : List Nat := db.nfts.rows.map NftObject.assetId

theorem assetsOf_logtransfer (db : Database) (collectionName receiver : Name)
    (assetIds : List Nat) :
    assetsOf (logtransfer p db collectionName receiver assetIds) = assetsOf db := by
  unfold logtransfer
  split
  · rfl
  · have hkeys : ∀ nfts : Objects NftObject.assetId,
        (assetIds.foldl (fun nfts id =>
          nfts.modify id (fun o => { o with owner := receiver }) fun _ => rfl) nfts).rows.map
            NftObject.assetId = nfts.rows.map NftObject.assetId := by
      induction assetIds with
      | nil => exact fun nfts => rfl
      | cons id rest ih =>
          intro nfts
          rw [List.foldl_cons, ih]
          simp only [Objects.modify, Objects.modifyAll, List.map_map]
          refine List.map_congr_left fun o _ => ?_
          simp only [Function.comp]
          split <;> rfl
    exact hkeys db.nfts

theorem mem_assetsOf {a : NftObject} :
    a.assetId ∈ assetsOf db ↔ db.nfts.emplace? a = none := by
  rw [emplace?_eq_none, assetsOf, List.mem_map]

/-- A search leaves the data of a template exactly when a mint that is reached has neither the
attribute nor empty data. -/
theorem notifyAll_inside_iff (l : List Notification) (db : Database) :
    notifyAll p db l ≠ .error pastEnd ↔ StaysInside p (assetsOf db) l := by
  induction l generalizing db with
  | nil => exact iff_of_true pure_ne_error trivial
  | cons n rest ih =>
      have hnext : notifyAll p db (n :: rest) =
          notify p db n >>= fun db' => notifyAll p db' rest := List.foldlM_cons ..
      rw [hnext]
      cases n with
      | logtransfer collectionName receiver assetIds =>
          rw [StaysInside, ← assetsOf_logtransfer db collectionName receiver assetIds]
          exact ih _
      | logmint time m =>
          rw [notify, StaysInside]
          by_cases heden : isEden p m = true
          · rw [if_pos heden]
            cases haccount : accountOf m with
            | none =>
                rw [logmint_eden heden, haccount]
                simp only
                by_cases hempty : m.immutableTemplateData = [] ∧ m.immutableData = []
                · rw [if_pos hempty, and_iff_right hempty]
                  exact ih db
                · rw [if_neg hempty]
                  exact iff_of_false (fun hne => hne rfl) fun hall => hempty hall.1
            | some value =>
                simp only
                cases hname : nameIn value with
                | none =>
                    obtain ⟨e, hne, herror⟩ := logmint_unnamed heden haccount hname time db
                    rw [herror]
                    refine iff_of_true (fun hsame => hne (Except.error.inj hsame)) ?_
                    exact fun hsome => by cases hsome
                | some member =>
                    rw [logmint_named heden haccount hname]
                    simp only [Option.isSome_some, forall_true_left]
                    cases hnfts : db.nfts.emplace? (mintedRow db time m member) with
                    | none =>
                        have hold : m.assetId ∈ assetsOf db := mem_assetsOf.mpr hnfts
                        refine iff_of_true ?_ fun hnew => absurd hold hnew
                        exact fun hsame => by cases hsame
                    | some nfts =>
                        have hnew : m.assetId ∉ assetsOf db := fun hold => by
                          have hnone : db.nfts.emplace? (mintedRow db time m member) = none :=
                            mem_assetsOf.mp hold
                          rw [hnfts] at hnone
                          cases hnone
                        have hassets : assetsOf { db with nfts := nfts } =
                            assetsOf db ++ [m.assetId] := by
                          rw [assetsOf, emplace?_eq_some.mp hnfts, List.map_append]
                          rfl
                        rw [forall_prop_of_true hnew, ← hassets]
                        exact ih _
          · rw [if_neg heden, logmint_other (by simpa using heden)]
            exact ih db

/-! ### The records -/

/-- The table has one record for each asset of a member, with the member, the owner since the last
transfer, and the number of assets minted for the member before. -/
structure Records (p : Platform) (l : List Notification) (nfts : Objects NftObject.assetId) :
    Prop where
  minted : ∀ l₁ time m l₂ member, l = l₁ ++ .logmint time m :: l₂ → memberOf p m = some member →
    ∃ o, nfts.find? m.assetId = some o ∧ o.member = member ∧ o.owner = lastOwner p m l₂ ∧
      o.templateMint = l₁.countP (mints p member)
  only : ∀ o ∈ nfts.rows, ∃ l₁ time m l₂, l = l₁ ++ .logmint time m :: l₂ ∧
    memberOf p m = some o.member ∧ m.assetId = o.assetId
  counted : ∀ member, nfts.rows.countP (fun o => o.member = member) = l.countP (mints p member)

/-- The last notification is the one that is looked for, or it comes after it. -/
theorem split_concat {l l₁ l₂ : List Notification} {n n' : Notification}
    (h : l ++ [n] = l₁ ++ n' :: l₂) :
    (l = l₁ ∧ n = n' ∧ l₂ = []) ∨ ∃ l₃, l = l₁ ++ n' :: l₃ ∧ l₂ = l₃ ++ [n] := by
  rcases List.eq_nil_or_concat l₂ with rfl | ⟨l₃, last, rfl⟩
  · obtain ⟨hl, hn⟩ := List.append_inj' h rfl
    exact .inl ⟨hl, List.singleton_inj.mp hn, rfl⟩
  · rw [List.concat_eq_append, ← List.cons_append, ← List.append_assoc] at h
    obtain ⟨hl, hn⟩ := List.append_inj' h rfl
    rw [List.singleton_inj] at hn
    subst hn
    exact .inr ⟨l₃, hl, List.concat_eq_append⟩

theorem lastOwner_concat (m : Mint) (later : List Notification) (n : Notification) :
    lastOwner p m (later ++ [n]) =
      ((recipientOf p m.assetId n).getD (lastOwner p m later)) := by
  rw [lastOwner, List.filterMap_append]
  cases hrecipient : recipientOf p m.assetId n with
  | none => simp [hrecipient, lastOwner]
  | some receiver => simp [hrecipient]

theorem find?_logtransfer (db : Database) (collectionName receiver : Name) (assetIds : List Nat)
    (id : Nat) : (logtransfer p db collectionName receiver assetIds).nfts.find? id =
      (db.nfts.find? id).map fun o => { o with
        owner := (recipientOf p id (.logtransfer collectionName receiver assetIds)).getD
          o.owner } := by
  unfold logtransfer
  split
  · rename_i hother
    rw [recipientOf, if_neg fun hboth => hother hboth.1]
    exact Option.map_id'.symm
  · rename_i hself
    have hloop : ∀ nfts : Objects NftObject.assetId,
        (assetIds.foldl (fun nfts id =>
          nfts.modify id (fun o => { o with owner := receiver }) fun _ => rfl) nfts).find? id =
        (nfts.find? id).map fun o =>
          if id ∈ assetIds then { o with owner := receiver } else o := by
      induction assetIds with
      | nil =>
          intro nfts
          simp
      | cons first rest ih =>
          intro nfts
          rw [List.foldl_cons, ih, find?_modify, Option.map_map]
          congr 1
          funext o
          by_cases hfirst : id = first
          · simp [hfirst]
          · simp [hfirst]
    change (assetIds.foldl _ db.nfts).find? id = _
    rw [hloop]
    congr 1
    funext o
    by_cases hmem : id ∈ assetIds
    · rw [if_pos hmem, recipientOf, if_pos ⟨not_not.mp hself, hmem⟩]
      rfl
    · rw [if_neg hmem, recipientOf, if_neg fun hboth => hmem hboth.2]
      rfl

theorem lastOwner_logmint (m : Mint) (later : List Notification) (time : Nat) (other : Mint) :
    lastOwner p m (later ++ [.logmint time other]) = lastOwner p m later :=
  lastOwner_concat m later (.logmint time other)

/-- Transfers change no member. -/
theorem countP_logtransfer (db : Database) (collectionName receiver : Name) (assetIds : List Nat)
    (member : Name) :
    (logtransfer p db collectionName receiver assetIds).nfts.rows.countP
      (fun o => o.member = member) = db.nfts.rows.countP fun o => o.member = member := by
  unfold logtransfer
  split
  · rfl
  · have hloop : ∀ nfts : Objects NftObject.assetId,
        (assetIds.foldl (fun nfts id =>
          nfts.modify id (fun o => { o with owner := receiver }) fun _ => rfl) nfts).rows.countP
            (fun o => o.member = member) = nfts.rows.countP fun o => o.member = member := by
      induction assetIds with
      | nil => exact fun nfts => rfl
      | cons first rest ih =>
          intro nfts
          rw [List.foldl_cons, ih, rows_modify, List.countP_map]
          refine List.countP_congr fun o _ => ?_
          simp only [Function.comp]
          split <;> rfl
    exact hloop db.nfts

namespace Records

variable {l : List Notification} {nfts nfts' : Objects NftObject.assetId}

theorem nil : Records p [] ∅ where
  minted l₁ time m l₂ member hl := by simp at hl
  only o ho := by cases ho
  counted member := rfl

/-- A mint that is not recorded. -/
theorem skip (h : Records p l nfts) {time : Nat} {m : Mint} (hnone : memberOf p m = none) :
    Records p (l ++ [.logmint time m]) nfts where
  minted l₁ time' m' l₂ member hl hmember := by
    rcases split_concat hl with ⟨-, hsame, -⟩ | ⟨l₃, hbefore, rfl⟩
    · cases hsame
      rw [hnone] at hmember
      cases hmember
    · obtain ⟨o, ho, hom, hoo, hoc⟩ := h.minted l₁ time' m' l₃ member hbefore hmember
      exact ⟨o, ho, hom, hoo.trans (lastOwner_logmint m' l₃ time m).symm, hoc⟩
  only o ho := by
    obtain ⟨l₁, time', m', l₂, rfl, hrest⟩ := h.only o ho
    exact ⟨l₁, time', m', l₂ ++ [.logmint time m], by simp, hrest⟩
  counted member := by
    rw [h.counted, List.countP_append]
    simp [mints, hnone]

/-- A mint with a new record. -/
theorem mint {time : Nat} {m : Mint} {member : Name} (h : Records p l db.nfts)
    (hmember : memberOf p m = some member)
    (hnfts : db.nfts.emplace? (mintedRow db time m member) = some nfts') :
    Records p (l ++ [.logmint time m]) nfts' where
  minted l₁ time' m' l₂ member' hl hmember' := by
    rcases split_concat hl with ⟨rfl, hsame, rfl⟩ | ⟨l₃, hbefore, rfl⟩
    · cases hsame
      have hsame : member = member' := Option.some.inj (hmember.symm.trans hmember')
      subst hsame
      refine ⟨mintedRow db time m member, ?_, rfl, rfl, h.counted member⟩
      rw [find?_emplace? hnfts]
      exact if_pos rfl
    · obtain ⟨o, ho, hom, hoo, hoc⟩ := h.minted l₁ time' m' l₃ member' hbefore hmember'
      have hold : m'.assetId ∈ assetsOf db := by
        obtain ⟨hmem, hkey⟩ := find?_eq_some.mp ho
        exact hkey ▸ List.mem_map_of_mem hmem
      have hne : (mintedRow db time m member).assetId ≠ m'.assetId := fun hsame => by
        have hnone : db.nfts.emplace? (mintedRow db time m member) = none :=
          mem_assetsOf.mp (hsame ▸ hold)
        rw [hnfts] at hnone
        cases hnone
      refine ⟨o, ?_, hom, hoo.trans (lastOwner_logmint m' l₃ time m).symm, hoc⟩
      rw [find?_emplace? hnfts, if_neg hne, ho]
  only o ho := by
    rw [emplace?_eq_some.mp hnfts, List.mem_append, List.mem_singleton] at ho
    rcases ho with ho | rfl
    · obtain ⟨l₁, time', m', l₂, rfl, hrest⟩ := h.only o ho
      exact ⟨l₁, time', m', l₂ ++ [.logmint time m], by simp, hrest⟩
    · exact ⟨l, time, m, [], rfl, hmember, rfl⟩
  counted member' := by
    rw [emplace?_eq_some.mp hnfts, List.countP_append, List.countP_append, h.counted]
    simp [mints, hmember, mintedRow]

theorem transfer {collectionName receiver : Name} {assetIds : List Nat} (h : Records p l db.nfts) :
    Records p (l ++ [.logtransfer collectionName receiver assetIds])
      (logtransfer p db collectionName receiver assetIds).nfts := by
  have hfind : ∀ id, (logtransfer p db collectionName receiver assetIds).nfts.find? id =
      (db.nfts.find? id).map fun o => { o with
        owner := (recipientOf p id (.logtransfer collectionName receiver assetIds)).getD o.owner } :=
    find?_logtransfer db collectionName receiver assetIds
  refine ⟨fun l₁ time m l₂ member hl hmember => ?_, fun o ho => ?_, fun member => ?_⟩
  · rcases split_concat hl with ⟨-, hsame, -⟩ | ⟨l₃, hbefore, rfl⟩
    · cases hsame
    · obtain ⟨o, ho, hom, hoo, hoc⟩ := h.minted l₁ time m l₃ member hbefore hmember
      refine ⟨_, (hfind m.assetId).trans (congrArg _ ho), hom, ?_, hoc⟩
      rw [lastOwner_concat, ← hoo]
  · have hkept := (hfind o.assetId).symm.trans (find?_eq_some.mpr ⟨ho, rfl⟩)
    obtain ⟨o', ho', hsame⟩ := Option.map_eq_some_iff.mp hkept
    obtain ⟨l₁, time, m, l₂, rfl, hmember, hasset⟩ := h.only o' (find?_eq_some.mp ho').1
    refine ⟨l₁, time, m, l₂ ++ [.logtransfer collectionName receiver assetIds], by simp, ?_, ?_⟩
    · rw [hmember, ← hsame]
    · rw [hasset, ← hsame]
  · rw [List.countP_append, ← h.counted, countP_logtransfer]
    simp [mints]

end Records

/-- The table has the records of the notifications that have been handled. -/
theorem records_notifyAll {l : List Notification} (h : notifyAll p { db with nfts := ∅ } l = .ok db') :
    Records p l db'.nfts := by
  induction l using List.reverseRecOn generalizing db' with
  | nil =>
      cases h
      exact .nil
  | append_singleton l n ih =>
      rw [notifyAll, List.foldlM_append] at h
      obtain ⟨db₁, hbefore, hlast⟩ := bind_eq_ok.mp h
      have hrecords := ih hbefore
      rw [List.foldlM_cons] at hlast
      obtain ⟨db₂, hn, hdone⟩ := bind_eq_ok.mp hlast
      cases hdone
      cases n with
      | logtransfer collectionName receiver assetIds =>
          cases hn
          exact hrecords.transfer
      | logmint time m =>
          rcases logmint_eq_ok hn with ⟨hnone, rfl⟩ | ⟨member, nfts, hmember, hnfts, rfl⟩
          · exact hrecords.skip hnone
          · exact hrecords.mint hmember hnfts

/-- The notifications are handled without a read outside of the data of a template, and the table
has their records when none aborts, exactly when each mint of the contract that is reached has the
attribute `account` in its template, or no data at all. -/
theorem nfts_mirrored_iff (p : Platform) (db : Database) (l : List Notification) :
    (notifyAll p { db with nfts := ∅ } l ≠ .error pastEnd ∧
      ∀ db', notifyAll p { db with nfts := ∅ } l = .ok db' → Records p l db'.nfts) ↔
    StaysInside p [] l := by
  rw [and_iff_left fun db' h => records_notifyAll h]
  exact notifyAll_inside_iff l { db with nfts := ∅ }

/-- An asset of the contract whose template has a name only. -/
def unnamed : Mint where
  assetId := 1
  authorizedMinter := host.self
  collectionName := host.self
  schemaName := host.schemaName
  templateId := 1
  newAssetOwner := alice.name
  immutableData := []
  immutableTemplateData := [(['n', 'a', 'm', 'e'], .string ['a'])]

/-- The search for the account goes on past the end of the template's data. -/
theorem unnamed_reads_past_end : ¬ ∀ (p : Platform) (db : Database) (l : List Notification),
    notifyAll p { db with nfts := ∅ } l ≠ .error pastEnd ∧
      ∀ db', notifyAll p { db with nfts := ∅ } l = .ok db' → Records p l db'.nfts := by
  intro h
  refine (h host {} [.logmint 0 unnamed]).1 ?_
  rw [notifyAll, List.foldlM_cons, notify, logmint_eden (by decide)]
  rfl

end Eden.MirroredNfts

import ShinyCoin.Chain.State
import ShinyCoin.Lib.TreeMap

/-!
# Orphan transactions

Transactions whose inputs are not all known wait in `mapOrphanTransactions`, under their hash, and in
`mapOrphanTransactionsByPrev`, under the hash of each transaction they spend. `Filed` is what always
holds of the two: the second one holds, under `p`, the orphans that spend `p`. Whether it also has no
key but those somebody waits for (`NoEmpty`) depends on who reads it: `operator[]` adds the key it
is asked for.
-/

namespace ShinyCoin

/-- `MAX_BLOCK_SIZE/100` -/
def MAX_ORPHAN_TRANSACTIONS : Nat := MAX_BLOCK_SIZE / 100

/-- A stream a transaction can be read from, with whatever comes behind it. -/
structure CDataStream where
  tx : CTransaction
  rest : Bytes := []
  deriving DecidableEq, Repr

def CDataStream.size (vMsg : CDataStream) : Nat := vMsg.tx.getSerializeSize + vMsg.rest.length

/-- `map<uint256, CDataStream*>` -/
abbrev StreamMap := Std.ExtTreeMap Uint256 CDataStream compare

structure OrphanTxs where
  mapOrphanTransactions : StreamMap := ∅
  mapOrphanTransactionsByPrev : Lib.PMap Uint256 StreamMap := Lib.PMap.empty

namespace OrphanTxs

/-! ## The two maps -/

/-- What is stored under `p`, nothing where there is no key `p`. -/
def waiting (byPrev : Lib.PMap Uint256 StreamMap) (p : Uint256) : StreamMap := (byPrev p).getD ∅

/-- `operator[]` of `mapOrphanTransactionsByPrev`: a key that is not there is added. -/
def touch (o : OrphanTxs) (p : Uint256) : OrphanTxs :=
  { o with mapOrphanTransactionsByPrev :=
      o.mapOrphanTransactionsByPrev.set p (waiting o.mapOrphanTransactionsByPrev p) }

/-- `mapOrphanTransactionsByPrev[txin.prevout.hash].insert(make_pair(hash, pvMsg))`: an entry that is
there stays. -/
def addInput (hash : Uint256) (vMsg : CDataStream) (byPrev : Lib.PMap Uint256 StreamMap)
    (txin : CTxIn) : Lib.PMap Uint256 StreamMap :=
  byPrev.set txin.prevout.hash ((waiting byPrev txin.prevout.hash).insertIfNew hash vMsg)

/-- One round of the loop of `EraseOrphanTx`: the key goes with its last entry. -/
def eraseInput (hash : Uint256) (byPrev : Lib.PMap Uint256 StreamMap) (txin : CTxIn) :
    Lib.PMap Uint256 StreamMap :=
  let left := (waiting byPrev txin.prevout.hash).erase hash
  if left.isEmpty then byPrev.erase txin.prevout.hash else byPrev.set txin.prevout.hash left

/-- `AddOrphanTx`, without the `bool` that says whether the transaction was stored. -/
def addOrphanTx (env : Env) (o : OrphanTxs) (vMsg : CDataStream) : OrphanTxs :=
  let hash := env.getHash vMsg.tx
  if hash ∈ o.mapOrphanTransactions then o
  else if 5000 < vMsg.size then o
  else
    { mapOrphanTransactions := o.mapOrphanTransactions.insert hash vMsg
      mapOrphanTransactionsByPrev :=
        vMsg.tx.vin.foldl (addInput hash vMsg) o.mapOrphanTransactionsByPrev }

def eraseOrphanTx (o : OrphanTxs) (hash : Uint256) : OrphanTxs :=
  match o.mapOrphanTransactions[hash]? with
  | none => o
  | some vMsg =>
      { mapOrphanTransactions := o.mapOrphanTransactions.erase hash
        mapOrphanTransactionsByPrev :=
          vMsg.tx.vin.foldl (eraseInput hash) o.mapOrphanTransactionsByPrev }

/-- The orphan that goes: the first one from a random hash on, or the first one of all. -/
def pickRandom (o : OrphanTxs) (randomhash : Uint256) : Option Uint256 :=
  let hashes := o.mapOrphanTransactions.toList.map Prod.fst
  (hashes.find? fun hash => randomhash ≤ hash).or hashes.head?

/-- The loop of `LimitOrphanTxSize`, with the random hashes it draws. -/
def limitLoop (nMaxOrphans : Nat) : Nat → (Nat → Uint256) → OrphanTxs → OrphanTxs
  | 0, _, o => o
  | fuel + 1, rand, o =>
      if nMaxOrphans < o.mapOrphanTransactions.size then
        match o.pickRandom (rand 0) with
        | none => o
        | some hash => limitLoop nMaxOrphans fuel (fun i => rand (i + 1)) (o.eraseOrphanTx hash)
      else o

/-- `LimitOrphanTxSize`, without the number of orphans it evicted. A round evicts one, so there are
no more rounds than orphans. -/
def limitOrphanTxSize (nMaxOrphans : Nat) (rand : Nat → Uint256) (o : OrphanTxs) : OrphanTxs :=
  limitLoop nMaxOrphans o.mapOrphanTransactions.size rand o

/-! ## Who waits for whom -/

/-- The orphan stored under `hash` spends an output of the transaction `p`. -/
def Waits (o : OrphanTxs) (p hash : Uint256) (vMsg : CDataStream) : Prop :=
  o.mapOrphanTransactions[hash]? = some vMsg ∧ ∃ txin ∈ vMsg.tx.vin, txin.prevout.hash = p

/-- The maps agree in what they hold. -/
structure Filed (env : Env) (o : OrphanTxs) : Prop where
  keyed : ∀ hash vMsg, o.mapOrphanTransactions[hash]? = some vMsg → env.getHash vMsg.tx = hash
  waits : ∀ p hash vMsg,
    (waiting o.mapOrphanTransactionsByPrev p)[hash]? = some vMsg ↔ o.Waits p hash vMsg

/-- No key without an entry. -/
def NoEmpty (o : OrphanTxs) : Prop :=
  ∀ p left, o.mapOrphanTransactionsByPrev p = some left → left ≠ ∅

/-- The maps agree exactly: `mapOrphanTransactionsByPrev` has the key `p` when some stored orphan has
an input that spends `p`, and maps it to those orphans; and every orphan is under its own hash. -/
def Agree (env : Env) (o : OrphanTxs) : Prop :=
  (∀ hash vMsg, o.mapOrphanTransactions[hash]? = some vMsg → env.getHash vMsg.tx = hash) ∧
  (∀ p, (o.mapOrphanTransactionsByPrev p).isSome = true ↔ ∃ hash vMsg, o.Waits p hash vMsg) ∧
  ∀ p left, o.mapOrphanTransactionsByPrev p = some left →
    ∀ hash vMsg, left[hash]? = some vMsg ↔ o.Waits p hash vMsg

theorem agree_iff {env : Env} {o : OrphanTxs} : o.Agree env ↔ o.Filed env ∧ o.NoEmpty := by
  constructor
  · rintro ⟨hkeyed, hkey, hentry⟩
    refine ⟨⟨hkeyed, ?_⟩, ?_⟩
    · intro p hash vMsg
      unfold waiting
      cases hp : o.mapOrphanTransactionsByPrev p with
      | none =>
          rw [Option.getD_none, Std.ExtTreeMap.getElem?_empty]
          refine ⟨by simp, fun hw => ?_⟩
          have := (hkey p).mpr ⟨hash, vMsg, hw⟩
          rw [hp] at this
          exact Bool.noConfusion this
      | some left => exact hentry p left hp hash vMsg
    · rintro p left hp rfl
      obtain ⟨hash, vMsg, hw⟩ := (hkey p).mp (by rw [hp]; rfl)
      have := (hentry p ∅ hp hash vMsg).mpr hw
      rw [Std.ExtTreeMap.getElem?_empty] at this
      cases this
  · rintro ⟨⟨hkeyed, hwaits⟩, hne⟩
    have hentry : ∀ p left, o.mapOrphanTransactionsByPrev p = some left →
        ∀ hash vMsg, left[hash]? = some vMsg ↔ o.Waits p hash vMsg := by
      intro p left hp hash vMsg
      rw [← hwaits, waiting, hp, Option.getD_some]
    refine ⟨hkeyed, ?_, hentry⟩
    intro p
    constructor
    · intro hp
      obtain ⟨left, hp⟩ := Option.isSome_iff_exists.mp hp
      by_contra hnone
      apply hne p left hp
      rw [Lib.eq_empty_iff_getElem?]
      intro h
      cases hv : left[h]? with
      | none => rfl
      | some vMsg => exact absurd ⟨h, vMsg, (hentry p left hp h vMsg).mp hv⟩ hnone
    · rintro ⟨hash, vMsg, hw⟩
      cases hp : o.mapOrphanTransactionsByPrev p with
      | some left => rfl
      | none =>
          have := (hwaits p hash vMsg).mpr hw
          rw [waiting, hp, Option.getD_none, Std.ExtTreeMap.getElem?_empty] at this
          cases this

/-! ## Adding and erasing -/

section

variable {env : Env} {o : OrphanTxs} {hash : Uint256} {vMsg : CDataStream}
  {byPrev : Lib.PMap Uint256 StreamMap} {txins : List CTxIn}

theorem waiting_addInput (txin : CTxIn) (p : Uint256) :
    waiting (addInput hash vMsg byPrev txin) p =
      if txin.prevout.hash = p then (waiting byPrev p).insertIfNew hash vMsg
      else waiting byPrev p := by
  unfold waiting addInput
  rw [Lib.PMap.set_apply]
  by_cases hp : p = txin.prevout.hash
  · rw [if_pos hp, if_pos hp.symm, hp]
    rfl
  · rw [if_neg hp, if_neg (Ne.symm hp)]

theorem waiting_eraseInput (txin : CTxIn) (p : Uint256) :
    waiting (eraseInput hash byPrev txin) p =
      if txin.prevout.hash = p then (waiting byPrev p).erase hash else waiting byPrev p := by
  simp only [eraseInput]
  by_cases hp : p = txin.prevout.hash
  · rw [if_pos hp.symm, hp]
    split
    · next hempty =>
      rw [Std.ExtTreeMap.isEmpty_iff] at hempty
      rw [hempty, waiting, Lib.PMap.erase_self]
      rfl
    · rw [waiting, Lib.PMap.set_self]
      rfl
  · rw [if_neg (Ne.symm hp)]
    split
    · rw [waiting, Lib.PMap.erase_of_ne hp]
      rfl
    · rw [waiting, Lib.PMap.set_of_ne hp]
      rfl

/-- What waits for `p` after all inputs were filed. -/
theorem getElem?_waiting_addInputs (p h : Uint256) :
    (waiting (txins.foldl (addInput hash vMsg) byPrev) p)[h]? =
      if h = hash ∧ (∃ txin ∈ txins, txin.prevout.hash = p) ∧ (waiting byPrev p)[h]? = none then
        some vMsg
      else (waiting byPrev p)[h]? := by
  induction txins generalizing byPrev with
  | nil => simp
  | cons txin txins ih =>
      rw [List.foldl_cons, ih, waiting_addInput]
      by_cases hp : txin.prevout.hash = p
      · rw [if_pos hp, Lib.getElem?_insertIfNew]
        by_cases hh : h = hash
        · cases hv : (waiting byPrev p)[h]? <;> simp [hh, hp]
        · simp [hh]
      · rw [if_neg hp]
        simp [hp]

theorem getElem?_waiting_eraseInputs (p h : Uint256) :
    (waiting (txins.foldl (eraseInput hash) byPrev) p)[h]? =
      if h = hash ∧ ∃ txin ∈ txins, txin.prevout.hash = p then none
      else (waiting byPrev p)[h]? := by
  induction txins generalizing byPrev with
  | nil => simp
  | cons txin txins ih =>
      rw [List.foldl_cons, ih, waiting_eraseInput]
      by_cases hp : txin.prevout.hash = p
      · rw [if_pos hp, Lib.getElem?_erase]
        by_cases hh : h = hash
        · simp [hh, hp]
        · simp [hh]
      · rw [if_neg hp]
        simp [hp]

theorem Filed.touch (h : o.Filed env) (p : Uint256) : (o.touch p).Filed env := by
  refine ⟨h.keyed, ?_⟩
  intro p' hash vMsg
  rw [show (o.touch p).Waits p' hash vMsg = o.Waits p' hash vMsg from rfl, ← h.waits]
  have hsame : waiting (o.touch p).mapOrphanTransactionsByPrev p' =
      waiting o.mapOrphanTransactionsByPrev p' := by
    show ((o.mapOrphanTransactionsByPrev.set p _) p').getD ∅ = _
    rw [Lib.PMap.set_apply]
    split
    · next heq => rw [heq, Option.getD_some]
    · rfl
  rw [hsame]

theorem Filed.addOrphanTx (h : o.Filed env) (vMsg : CDataStream) :
    (o.addOrphanTx env vMsg).Filed env := by
  simp only [OrphanTxs.addOrphanTx]
  split
  · exact h
  · next hnew =>
    split
    · exact h
    · have hnone : o.mapOrphanTransactions[env.getHash vMsg.tx]? = none := by
        exact Lib.getElem?_eq_none_iff.mpr hnew
      have hlookup := Lib.getElem?_insert o.mapOrphanTransactions (env.getHash vMsg.tx)
      refine ⟨?_, ?_⟩
      · intro k v hk
        rw [hlookup] at hk
        split at hk
        · next heq =>
          cases hk
          exact heq.symm
        · exact h.keyed k v hk
      · intro p k v
        rw [getElem?_waiting_addInputs, Waits, hlookup]
        -- the new hash waits for nobody yet
        have hfree : k = env.getHash vMsg.tx →
            (waiting o.mapOrphanTransactionsByPrev p)[k]? = none := by
          rintro rfl
          cases hw : (waiting o.mapOrphanTransactionsByPrev p)[env.getHash vMsg.tx]? with
          | none => rfl
          | some v' =>
              have := ((h.waits p _ v').mp hw).1
              rw [hnone] at this
              cases this
        by_cases hk : k = env.getHash vMsg.tx
        · rw [hfree hk, if_pos hk]
          by_cases hspends : ∃ txin ∈ vMsg.tx.vin, txin.prevout.hash = p
          · rw [if_pos ⟨hk, hspends, rfl⟩]
            constructor
            · intro heq
              cases heq
              exact ⟨rfl, hspends⟩
            · exact fun hw => hw.1
          · rw [if_neg (fun hc => hspends hc.2.1)]
            constructor
            · intro heq
              cases heq
            · rintro ⟨heq, hspends'⟩
              cases heq
              exact absurd hspends' hspends
        · rw [if_neg (fun hc => hk hc.1), if_neg hk]
          exact h.waits p k v

theorem Filed.eraseOrphanTx (h : o.Filed env) (hash : Uint256) :
    (o.eraseOrphanTx hash).Filed env := by
  unfold OrphanTxs.eraseOrphanTx
  split
  · exact h
  · next vMsg hstored =>
    have hlookup := Lib.getElem?_erase o.mapOrphanTransactions hash
    refine ⟨?_, ?_⟩
    · intro k v hk
      rw [hlookup] at hk
      split at hk
      · cases hk
      · exact h.keyed k v hk
    · intro p k v
      rw [getElem?_waiting_eraseInputs, Waits, hlookup]
      by_cases hk : k = hash
      · rw [if_pos hk]
        subst hk
        by_cases hspends : ∃ txin ∈ vMsg.tx.vin, txin.prevout.hash = p
        · rw [if_pos ⟨rfl, hspends⟩]
          simp
        · -- under `p` there was nothing of it
          rw [if_neg (fun hc => hspends hc.2), h.waits, Waits, hstored]
          constructor
          · rintro ⟨heq, hspends'⟩
            cases heq
            exact absurd hspends' hspends
          · rintro ⟨heq, -⟩
            cases heq
      · rw [if_neg (fun hc => hk hc.1), if_neg hk]
        exact h.waits p k v

/-! ## Keys without entries -/

theorem NoEmpty.touch (h : o.NoEmpty) {p : Uint256}
    (hp : waiting o.mapOrphanTransactionsByPrev p ≠ ∅) : (o.touch p).NoEmpty := by
  intro p' left hleft
  replace hleft : (o.mapOrphanTransactionsByPrev.set p
    (waiting o.mapOrphanTransactionsByPrev p)) p' = some left := hleft
  rw [Lib.PMap.set_apply] at hleft
  split at hleft
  · cases hleft
    exact hp
  · exact h p' left hleft

theorem NoEmpty.addOrphanTx (h : o.NoEmpty) (vMsg : CDataStream) :
    (o.addOrphanTx env vMsg).NoEmpty := by
  have loop : ∀ (txins : List CTxIn) (byPrev : Lib.PMap Uint256 StreamMap),
      (∀ p left, byPrev p = some left → left ≠ ∅) →
      ∀ p left, txins.foldl (addInput (env.getHash vMsg.tx) vMsg) byPrev p = some left → left ≠ ∅ := by
    intro txins
    induction txins with
    | nil => exact fun byPrev hb => hb
    | cons txin txins ih =>
        intro byPrev hb
        apply ih
        intro p left hp
        rw [addInput, Lib.PMap.set_apply] at hp
        split at hp
        · cases hp
          exact Std.ExtTreeMap.insertIfNew_ne_empty
        · exact hb p left hp
  simp only [OrphanTxs.addOrphanTx]
  split
  · exact h
  · split
    · exact h
    · exact loop _ _ h

theorem NoEmpty.eraseOrphanTx (h : o.NoEmpty) (hash : Uint256) :
    (o.eraseOrphanTx hash).NoEmpty := by
  have loop : ∀ (txins : List CTxIn) (byPrev : Lib.PMap Uint256 StreamMap),
      (∀ p left, byPrev p = some left → left ≠ ∅) →
      ∀ p left, txins.foldl (eraseInput hash) byPrev p = some left → left ≠ ∅ := by
    intro txins
    induction txins with
    | nil => exact fun byPrev hb => hb
    | cons txin txins ih =>
        intro byPrev hb
        apply ih
        intro p left hp
        simp only [eraseInput] at hp
        split at hp
        · rw [Lib.PMap.erase_apply] at hp
          split at hp
          · cases hp
          · exact hb p left hp
        · next hne =>
          rw [Lib.PMap.set_apply] at hp
          split at hp
          · cases hp
            intro hempty
            exact hne (Std.ExtTreeMap.isEmpty_iff.mpr hempty)
          · exact hb p left hp
  unfold OrphanTxs.eraseOrphanTx
  split
  · exact h
  · exact loop _ _ h

/-! ## The limit -/

theorem mem_of_pickRandom {randomhash : Uint256} (h : o.pickRandom randomhash = some hash) :
    hash ∈ o.mapOrphanTransactions := by
  have hmem : hash ∈ o.mapOrphanTransactions.toList.map Prod.fst := by
    simp only [pickRandom] at h
    rcases Option.or_eq_some_iff.mp h with h | ⟨-, h⟩
    · exact List.mem_of_find?_eq_some h
    · exact List.mem_of_head? h
  rw [Std.ExtTreeMap.map_fst_toList_eq_keys, Std.ExtTreeMap.mem_keys] at hmem
  exact hmem

/-- As long as there are orphans, one is picked. -/
theorem pickRandom_isSome (h : 0 < o.mapOrphanTransactions.size) (randomhash : Uint256) :
    ∃ hash, o.pickRandom randomhash = some hash := by
  simp only [pickRandom]
  have hne : o.mapOrphanTransactions.toList.map Prod.fst ≠ [] := by
    intro hnil
    have := congrArg List.length hnil
    rw [List.length_map, Std.ExtTreeMap.length_toList, List.length_nil] at this
    omega
  cases hf : (o.mapOrphanTransactions.toList.map Prod.fst).find? (fun hash => randomhash ≤ hash) with
  | some hash => exact ⟨hash, rfl⟩
  | none => exact ⟨_, List.head?_eq_some_head hne⟩

theorem size_eraseOrphanTx (h : hash ∈ o.mapOrphanTransactions) :
    (o.eraseOrphanTx hash).mapOrphanTransactions.size + 1 = o.mapOrphanTransactions.size := by
  unfold OrphanTxs.eraseOrphanTx
  split
  · next hnone => exact absurd h (Lib.getElem?_eq_none_iff.mp hnone)
  · exact Lib.size_erase_of_mem h

/-- The loop ends with at most `nMaxOrphans` orphans once it may take as many rounds as there are
orphans, and more rounds change nothing. -/
theorem limitLoop_spec (nMaxOrphans : Nat) {fuel : Nat} {rand : Nat → Uint256}
    (hfuel : o.mapOrphanTransactions.size ≤ fuel) :
    (limitLoop nMaxOrphans fuel rand o).mapOrphanTransactions.size ≤ nMaxOrphans ∧
      ∀ more, limitLoop nMaxOrphans (fuel + more) rand o = limitLoop nMaxOrphans fuel rand o := by
  induction fuel generalizing o rand with
  | zero =>
      have hzero : o.mapOrphanTransactions.size = 0 := by omega
      refine ⟨by rw [limitLoop, hzero]; exact Nat.zero_le _, ?_⟩
      intro more
      cases more with
      | zero => rfl
      | succ more =>
          have hnot : ¬ nMaxOrphans < o.mapOrphanTransactions.size := by omega
          show limitLoop nMaxOrphans (0 + more + 1) rand o = o
          rw [limitLoop, if_neg hnot]
  | succ fuel ih =>
      by_cases hover : nMaxOrphans < o.mapOrphanTransactions.size
      · obtain ⟨hash, hpick⟩ := pickRandom_isSome (o := o) (by omega) (rand 0)
        have hsize := size_eraseOrphanTx (mem_of_pickRandom hpick)
        have hfuel' : (o.eraseOrphanTx hash).mapOrphanTransactions.size ≤ fuel := by omega
        obtain ⟨hle, hmore⟩ := @ih _ (fun i => rand (i + 1)) hfuel'
        refine ⟨?_, ?_⟩
        · rw [limitLoop, if_pos hover, hpick]
          exact hle
        · intro more
          rw [show fuel + 1 + more = (fuel + more) + 1 by omega, limitLoop, limitLoop, if_pos hover,
            if_pos hover, hpick]
          exact hmore more
      · refine ⟨?_, ?_⟩
        · rw [limitLoop, if_neg hover]
          omega
        · intro more
          rw [show fuel + 1 + more = (fuel + more) + 1 by omega, limitLoop, limitLoop, if_neg hover,
            if_neg hover]

/-- What erasing keeps, the limit keeps. -/
theorem limitOrphanTxSize_inv (I : OrphanTxs → Prop) (herase : ∀ o hash, I o → I (o.eraseOrphanTx hash))
    (nMaxOrphans : Nat) (rand : Nat → Uint256) (h : I o) :
    I (o.limitOrphanTxSize nMaxOrphans rand) := by
  have loop : ∀ (fuel : Nat) (rand : Nat → Uint256) (o : OrphanTxs), I o →
      I (limitLoop nMaxOrphans fuel rand o) := by
    intro fuel
    induction fuel with
    | zero => exact fun rand o h => h
    | succ fuel ih =>
        intro rand o h
        rw [limitLoop]
        split
        · split
          · exact h
          · exact ih _ _ (herase o _ h)
        · exact h
  exact loop _ _ _ h

theorem filed_empty : ({} : OrphanTxs).Filed env := by
  refine ⟨?_, ?_⟩
  · intro hash vMsg h
    rw [Std.ExtTreeMap.getElem?_empty] at h
    cases h
  · intro p hash vMsg
    rw [Waits, show waiting ({} : OrphanTxs).mapOrphanTransactionsByPrev p = ∅ from rfl,
      show ({} : OrphanTxs).mapOrphanTransactions = ∅ from rfl]
    simp

theorem noEmpty_empty : ({} : OrphanTxs).NoEmpty := by
  intro p left h
  cases h

end

end OrphanTxs

end ShinyCoin

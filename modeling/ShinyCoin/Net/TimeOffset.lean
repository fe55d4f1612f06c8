import ShinyCoin.Lib.Rank
import ShinyCoin.Net.AddrMan

/-!
# The time of the network

Each peer says in its `version` what time it has. The first word of every address counts, and the median
of what they say is by how much this node's time is adjusted. It is looked at only while an odd number
of values is there, so the filter, once it is full, decides nothing any more.
-/

namespace ShinyCoin

/-! ## The median filter -/

/-- `CMedianFilter<int64>` -/
structure CMedianFilter where
  vValues : List ℤ
  vSorted : List ℤ
  nSize : Nat

namespace CMedianFilter

def new (size : Nat) (initial_value : ℤ) : CMedianFilter :=
  { vValues := [initial_value], vSorted := [initial_value], nSize := size }

def input (filter : CMedianFilter) (value : ℤ) : CMedianFilter :=
  let vValues := if filter.vValues.length = filter.nSize then filter.vValues.tail else filter.vValues
  let vValues := vValues ++ [value]
  { filter with vValues := vValues, vSorted := vValues.insertionSort (· ≤ ·) }

def size (filter : CMedianFilter) : Nat := filter.vValues.length

def median (filter : CMedianFilter) : ℤ :=
  let size := filter.vSorted.length
  if size % 2 = 1 then filter.vSorted.getD (size / 2) 0
  else (int64 (filter.vSorted.getD (size / 2 - 1) 0 + filter.vSorted.getD (size / 2) 0)).tdiv 2

end CMedianFilter

/-! ## AddTimeData -/

/-- The static variables of `util.cpp` about the time -/
structure TimeData where
  setKnown : List CNetAddr := []
  vTimeOffsets : CMedianFilter := .new 200 0
  nTimeOffset : ℤ := 0
  fDone : Bool := false
  strMiscWarning : String := ""

def abs64 (n : ℤ) : ℤ := if 0 ≤ n then n else int64 (-n)

/-- What an address says: `GetTime()` here, the address, and its time -/
structure TimeVote where
  nNow : ℤ
  ip : CNetAddr
  nTime : ℤ

namespace TimeData

def strDateWarning : String :=
  "Warning: Please check that your computer's date and time are correct.  If your clock is wrong " ++
    "ShinyCoin will not work properly."

/-- "Only let other nodes change our time by so much" -/
def adjust (t : TimeData) : TimeData :=
  let nMedian := t.vTimeOffsets.median
  if abs64 nMedian < 70 * 60 then { t with nTimeOffset := nMedian }
  else
    let t := { t with nTimeOffset := 0 }
    if t.fDone then t
    else
      -- "If nobody has a time different than ours but within 5 minutes of ours, give a warning"
      let fMatch := t.vTimeOffsets.vSorted.any fun nOffset =>
        decide (nOffset ≠ 0) && decide (abs64 nOffset < 5 * 60)
      if fMatch then t else { t with fDone := true, strMiscWarning := strDateWarning }

def addTimeData (t : TimeData) (vote : TimeVote) : TimeData :=
  let nOffsetSample := int64 (vote.nTime - vote.nNow)
  if vote.ip ∈ t.setKnown then t
  else
    let t := { t with
      setKnown := vote.ip :: t.setKnown
      vTimeOffsets := t.vTimeOffsets.input nOffsetSample }
    if 5 ≤ t.vTimeOffsets.size ∧ t.vTimeOffsets.size % 2 = 1 then t.adjust else t

/-- `GetAdjustedTime()` -/
def getAdjustedTime (t : TimeData) (nNow : ℤ) : ℤ := nNow + t.nTimeOffset

/-! ## What the votes come to -/

/-- The offsets that count: the first one of each address -/
def offsets : List CNetAddr → List TimeVote → List ℤ
  | _, [] => []
  | known, vote :: votes =>
      if vote.ip ∈ known then offsets known votes
      else int64 (vote.nTime - vote.nNow) :: offsets (vote.ip :: known) votes

/-- How many values, this node's own among them, decide: an odd number, from 5 on and below 200 -/
def deciding (n : Nat) : Option Nat :=
  if n < 5 then none else some (if min n 199 % 2 = 1 then min n 199 else min n 199 - 1)

/-- An offset that is too large counts as none. -/
def clamp (nMedian : ℤ) : ℤ := if abs64 nMedian < 70 * 60 then nMedian else 0

/-- The offset that values decide -/
def decided (values : List ℤ) : ℤ :=
  match deciding values.length with
  | none => 0
  | some n => clamp (Lib.rank 0 (n / 2) (values.take n))

/-- `t` is what the values make of it. -/
structure Counts (values : List ℤ) (t : TimeData) : Prop where
  pos : 0 < values.length
  nSize : t.vTimeOffsets.nSize = 200
  length : t.vTimeOffsets.vValues.length = min values.length 200
  vValues : values.length ≤ 200 → t.vTimeOffsets.vValues = values
  nTimeOffset : t.nTimeOffset = decided values

theorem counts_start : Counts [0] {} :=
  ⟨Nat.one_pos, rfl, rfl, fun _ => rfl, rfl⟩

theorem adjust_nTimeOffset (t : TimeData) : t.adjust.nTimeOffset = clamp t.vTimeOffsets.median := by
  unfold adjust clamp
  dsimp only
  split
  · rfl
  · split
    · rfl
    · split <;> rfl

theorem adjust_vTimeOffsets (t : TimeData) : t.adjust.vTimeOffsets = t.vTimeOffsets := by
  unfold adjust
  dsimp only
  split
  · rfl
  · split
    · rfl
    · split <;> rfl

theorem adjust_setKnown (t : TimeData) : t.adjust.setKnown = t.setKnown := by
  unfold adjust
  dsimp only
  split
  · rfl
  · split
    · rfl
    · split <;> rfl

theorem deciding_le {n m : Nat} (h : deciding n = some m) : m % 2 = 1 ∧ m ≤ n := by
  unfold deciding at h
  split at h
  · cases h
  · have := Option.some.inj h
    split at this <;> omega

/-- Values beyond those that decide change nothing. -/
theorem decided_append {values : List ℤ} {x : ℤ}
    (h : deciding (values.length + 1) = deciding values.length) :
    decided (values ++ [x]) = decided values := by
  unfold decided
  rw [List.length_append, List.length_singleton, h]
  cases hn : deciding values.length with
  | none => rfl
  | some n =>
      dsimp only
      rw [List.take_append_of_le_length (deciding_le hn).2]

/-- An even number of values decides no more than the odd number before it, and a full filter nothing. -/
theorem deciding_succ {n : Nat} (h : ¬(5 ≤ min (n + 1) 200 ∧ min (n + 1) 200 % 2 = 1)) :
    deciding (n + 1) = deciding n := by
  unfold deciding
  by_cases hfew : n + 1 < 5
  · rw [if_pos hfew, if_pos (by omega)]
  · have hn : ¬ n < 5 := by omega
    rw [if_neg hfew, if_neg hn]
    congr 1
    split <;> split <;> omega

/-- One more value -/
theorem Counts.input {values : List ℤ} {t : TimeData} (h : Counts values t) (t' : TimeData) (x : ℤ)
    (ht : t'.vTimeOffsets = t.vTimeOffsets.input x) (hoff : t'.nTimeOffset = t.nTimeOffset) :
    Counts (values ++ [x])
      (if 5 ≤ t'.vTimeOffsets.size ∧ t'.vTimeOffsets.size % 2 = 1 then t'.adjust else t') := by
  have hpos := h.pos
  have hlen : t'.vTimeOffsets.vValues.length = min (values.length + 1) 200 := by
    rw [ht]
    unfold CMedianFilter.input
    dsimp only
    rw [h.nSize]
    split
    · next hfull =>
        rw [List.length_append, List.length_tail, List.length_singleton]
        have := h.length
        omega
    · next hroom =>
        rw [List.length_append, List.length_singleton]
        have := h.length
        omega
  have hvalues : values.length + 1 ≤ 200 → t'.vTimeOffsets.vValues = values ++ [x] := by
    intro hle
    rw [ht]
    unfold CMedianFilter.input
    dsimp only
    have hlength := h.length
    rw [if_neg (by rw [h.nSize]; omega), h.vValues (by omega)]
  have hsize : t'.vTimeOffsets.nSize = 200 := by
    rw [ht]
    exact h.nSize
  have hsorted : t'.vTimeOffsets.vSorted = t'.vTimeOffsets.vValues.insertionSort (· ≤ ·) := by
    rw [ht]
    rfl
  have hcount : (values ++ [x]).length = values.length + 1 := by simp
  split
  · next hodd =>
      -- an odd size: the filter is not full yet
      unfold CMedianFilter.size at hodd
      rw [hlen] at hodd
      have hroom : values.length + 1 ≤ 199 := by omega
      refine ⟨by rw [hcount]; omega, ?_, ?_, ?_, ?_⟩
      · rw [adjust_vTimeOffsets]
        exact hsize
      · rw [adjust_vTimeOffsets, hcount]
        exact hlen
      · intro _
        rw [adjust_vTimeOffsets]
        exact hvalues (by omega)
      · have hdeciding : deciding (values.length + 1) = some (values.length + 1) := by
          unfold deciding
          rw [if_neg (by omega), if_pos (by omega)]
          congr 1
          omega
        have hmedian : t'.vTimeOffsets.median
            = Lib.rank 0 ((values.length + 1) / 2) (values ++ [x]) := by
          unfold CMedianFilter.median Lib.rank
          dsimp only
          rw [hsorted, hvalues (by omega), List.length_insertionSort, hcount, if_pos (by omega)]
        rw [adjust_nTimeOffset, hmedian]
        unfold decided
        rw [hcount, hdeciding]
        dsimp only
        rw [List.take_of_length_le (by rw [hcount])]
  · next heven =>
      unfold CMedianFilter.size at heven
      rw [hlen] at heven
      refine ⟨by rw [hcount]; exact Nat.succ_pos _, hsize, by rw [hcount]; exact hlen, ?_, ?_⟩
      · rw [hcount]
        exact hvalues
      · rw [hoff, h.nTimeOffset, decided_append (deciding_succ heven)]

theorem offsets_append (known : List CNetAddr) (votes more : List TimeVote) :
    ∃ known', offsets known (votes ++ more) = offsets known votes ++ offsets known' more ∧
      ∀ ip, ip ∈ known' ↔ ip ∈ known ∨ ∃ vote ∈ votes, vote.ip = ip := by
  induction votes generalizing known with
  | nil => exact ⟨known, rfl, fun ip => by simp⟩
  | cons vote votes ih =>
      rw [List.cons_append, offsets, offsets]
      split
      · next hold =>
          obtain ⟨known', heq, hmem⟩ := ih known
          refine ⟨known', heq, fun ip => ?_⟩
          rw [hmem, List.exists_mem_cons_iff, ← or_assoc]
          refine or_congr_left ⟨.inl, ?_⟩
          rintro (h | rfl)
          · exact h
          · exact hold
      · obtain ⟨known', heq, hmem⟩ := ih (vote.ip :: known)
        refine ⟨known', by rw [heq, List.cons_append], fun ip => ?_⟩
        rw [hmem, List.mem_cons, List.exists_mem_cons_iff, ← or_assoc, or_comm (a := ip = vote.ip)]
        exact or_congr_left (or_congr_right eq_comm)

/-- The state after any votes is what the offsets that count make of it. -/
theorem counts_foldl {values : List ℤ} {t : TimeData} (h : Counts values t) (votes : List TimeVote) :
    Counts (values ++ offsets t.setKnown votes) (votes.foldl addTimeData t) := by
  induction votes generalizing values t with
  | nil =>
      rw [offsets, List.append_nil]
      exact h
  | cons vote votes ih =>
      rw [List.foldl_cons, offsets]
      by_cases hold : vote.ip ∈ t.setKnown
      · have hsame : t.addTimeData vote = t := if_pos hold
        rw [if_pos hold, hsame]
        exact ih h
      · have hnext : Counts (values ++ [int64 (vote.nTime - vote.nNow)]) (t.addTimeData vote) := by
          unfold addTimeData
          dsimp only
          rw [if_neg hold]
          exact h.input { t with
            setKnown := vote.ip :: t.setKnown
            vTimeOffsets := t.vTimeOffsets.input (int64 (vote.nTime - vote.nNow)) } _ rfl rfl
        have hknown : (t.addTimeData vote).setKnown = vote.ip :: t.setKnown := by
          unfold addTimeData
          dsimp only
          rw [if_neg hold]
          split
          · rw [adjust_setKnown]
          · rfl
        have hrest := ih hnext
        rw [hknown, List.append_assoc, List.singleton_append] at hrest
        rw [if_neg hold]
        exact hrest

/-- What decides is between two bounds where most of the values that decide are, or it counts as none. -/
theorem decided_of_most {values : List ℤ} {n : Nat} {lo hi : ℤ}
    (hn : deciding values.length = some n)
    (hmost : n / 2 < (values.take n).countP fun x => decide (lo ≤ x ∧ x ≤ hi)) :
    decided values = 0 ∨ lo ≤ decided values ∧ decided values ≤ hi := by
  have hodd := (deciding_le hn).1
  have hlen : (values.take n).length ≤ 2 * (n / 2) + 1 := by
    have := List.length_take_le n values
    omega
  obtain ⟨-, hlo, hhi⟩ := Lib.rank_mem_of_most (d := 0) hlen hmost
  unfold decided
  rw [hn]
  dsimp only
  unfold clamp
  split
  · exact .inr ⟨hlo, hhi⟩
  · exact .inl rfl

/-- No offset is too large, except for the one number whose negative does not fit. -/
theorem decided_small {values : List ℤ} (h : ∀ x ∈ values, -2 ^ 63 < x ∧ x < 2 ^ 63) :
    |decided values| < 70 * 60 := by
  unfold decided
  split
  · decide
  · next n hn =>
      obtain ⟨hodd, hle⟩ := deciding_le hn
      have hmem : Lib.rank 0 (n / 2) (values.take n) ∈ values := by
        apply List.mem_of_mem_take (Lib.rank_mem _)
        rw [List.length_take]
        omega
      obtain ⟨hlo, hhi⟩ := h _ hmem
      unfold clamp
      split
      · next hsmall =>
          unfold abs64 at hsmall
          split at hsmall
          · next hpos => rwa [abs_of_nonneg hpos]
          · next hneg =>
              rw [int64, Int.bmod_eq_of_le (by omega) (by omega)] at hsmall
              rwa [abs_of_neg (not_le.mp hneg)]
      · decide

theorem offsets_range {known : List CNetAddr} {votes : List TimeVote} {x : ℤ}
    (hx : x ∈ offsets known votes) : ∃ vote ∈ votes, x = int64 (vote.nTime - vote.nNow) := by
  induction votes generalizing known with
  | nil => exact absurd hx List.not_mem_nil
  | cons vote votes ih =>
      rw [offsets] at hx
      split at hx
      · obtain ⟨v, hv, heq⟩ := ih hx
        exact ⟨v, List.mem_cons_of_mem _ hv, heq⟩
      · rcases List.mem_cons.mp hx with rfl | hx
        · exact ⟨vote, List.mem_cons_self, rfl⟩
        · obtain ⟨v, hv, heq⟩ := ih hx
          exact ⟨v, List.mem_cons_of_mem _ hv, heq⟩

/-- From 199 values on, the same ones decide. -/
theorem decided_full {values more : List ℤ} (h : 199 ≤ values.length) :
    decided (values ++ more) = decided values := by
  have hdeciding : ∀ n, 199 ≤ n → deciding n = some 199 := by
    intro n hn
    unfold deciding
    rw [if_neg (by omega), Nat.min_eq_right hn]
    rfl
  unfold decided
  rw [hdeciding _ h, hdeciding _ (by rw [List.length_append]; omega)]
  dsimp only
  rw [List.take_append_of_le_length h]

/-- After any votes in any order, `0 :: offsets` being this node's own offset and the first one of each
address: the time is adjusted by the median of the longest part of them, from the first one on, that
is odd, has at least 5 values and fewer than 200. So once 198 addresses have spoken, nobody moves it any
more; where most of the values that decide are between two bounds it is between them, or 0; and it is
under 70 minutes unless someone says just what `abs64` does not turn around. -/
theorem nTimeOffset_of_votes (votes : List TimeVote) :
    (votes.foldl addTimeData {}).nTimeOffset = decided (0 :: offsets [] votes) ∧
      (∀ more, 198 ≤ (offsets [] votes).length →
        ((votes ++ more).foldl addTimeData {}).nTimeOffset = (votes.foldl addTimeData {}).nTimeOffset) ∧
      (∀ n lo hi, deciding ((offsets [] votes).length + 1) = some n →
        n / 2 < ((0 :: offsets [] votes).take n).countP (fun x => decide (lo ≤ x ∧ x ≤ hi)) →
        (votes.foldl addTimeData {}).nTimeOffset = 0 ∨
          lo ≤ (votes.foldl addTimeData {}).nTimeOffset ∧
            (votes.foldl addTimeData {}).nTimeOffset ≤ hi) ∧
      ((∀ vote ∈ votes, int64 (vote.nTime - vote.nNow) ≠ -2 ^ 63) →
        |(votes.foldl addTimeData {}).nTimeOffset| < 70 * 60) := by
  have hall : ∀ votes, (votes.foldl addTimeData {}).nTimeOffset = decided (0 :: offsets [] votes) :=
    fun votes => (counts_foldl counts_start votes).nTimeOffset
  refine ⟨hall votes, fun more hfull => ?_, fun n lo hi hn hmost => ?_, fun hvotes => ?_⟩
  · obtain ⟨known, heq, -⟩ := offsets_append [] votes more
    rw [hall, hall, heq, ← List.cons_append]
    exact decided_full (Nat.succ_le_succ hfull)
  · rw [hall]
    exact decided_of_most hn hmost
  · rw [hall]
    apply decided_small
    intro x hx
    rcases List.mem_cons.mp hx with rfl | hx
    · decide
    · obtain ⟨vote, hvote, rfl⟩ := offsets_range hx
      have hne := hvotes vote hvote
      have hlo := Int.le_bmod (x := vote.nTime - vote.nNow) (m := 2 ^ 64) (by decide)
      have hhi := Int.bmod_lt (x := vote.nTime - vote.nNow) (m := 2 ^ 64) (by decide)
      unfold int64 at hne ⊢
      omega

/-- Five values, one of them far off -/
example :
    let vote (n : UInt8) (nTime : ℤ) : TimeVote := ⟨1000, ⟨.replicate 16 n⟩, nTime⟩
    ([vote 1 1010, vote 2 1020, vote 3 1030, vote 4 999999].foldl addTimeData {}).nTimeOffset = 20 := by
  decide

end TimeData

end ShinyCoin

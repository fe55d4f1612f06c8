import ShinyCoin.Lib.Rank
import ShinyCoin.Sync.Process

/-!
# The median time past

`AcceptBlock` wants a block later than the median of its parent and the ten blocks before it, or of as
many as there are. The times of a chain may go back; this median does not.
-/

namespace ShinyCoin

namespace BlockPtr

variable {p prev : CBlockIndex} {pprev ptr ancestor : BlockPtr}

/-- The times that `GetMedianTimePast` sorts -/
def medianTimes (ptr : BlockPtr) : List ℤ :=
  (ptr.take nMedianTimeSpan).map fun pindex => (pindex.nTime : ℤ)

theorem getMedianTimePast_eq (ptr : BlockPtr) :
    ptr.getMedianTimePast = Lib.rank 0 (ptr.medianTimes.length / 2) ptr.medianTimes := by
  unfold getMedianTimePast Lib.rank
  dsimp only
  rw [← medianTimes, List.length_insertionSort]

/-- Every block but the first is later than the median time past of its parent. -/
def Timely : BlockPtr → Prop
  | p :: prev :: pprev => getMedianTimePast (prev :: pprev) < p.nTime ∧ Timely (prev :: pprev)
  | _ => True

theorem Timely.suffix (h : ptr.Timely) (hsuf : ancestor <:+ ptr) : ancestor.Timely := by
  induction ptr with
  | nil =>
      rw [List.suffix_nil.mp hsuf]
      trivial
  | cons p pprev ih =>
      rcases List.suffix_cons_iff.mp hsuf with rfl | hsuf
      · exact h
      · refine ih ?_ hsuf
        cases pprev with
        | nil => trivial
        | cons prev pprev => exact h.2

/-- One more block: the window takes in a time above the median, and may give up its oldest one. -/
theorem getMedianTimePast_le_cons (h : getMedianTimePast (prev :: pprev) < p.nTime) :
    getMedianTimePast (prev :: pprev) ≤ getMedianTimePast (p :: prev :: pprev) := by
  have hwindow : medianTimes (p :: prev :: pprev)
      = (p.nTime : ℤ) :: (medianTimes (prev :: pprev)).take (nMedianTimeSpan - 1) := by
    simp [medianTimes, nMedianTimeSpan, List.map_take, List.take_take]
  have hpos : 0 < (medianTimes (prev :: pprev)).length := by
    simp [medianTimes, nMedianTimeSpan]
  have hlen : (medianTimes (prev :: pprev)).length ≤ (medianTimes (p :: prev :: pprev)).length := by
    simp only [medianTimes, List.length_map, List.length_take, List.length_cons]
    omega
  rw [getMedianTimePast_eq] at h ⊢
  rw [getMedianTimePast_eq (p :: prev :: pprev)]
  apply Lib.rank_le_rank_cons (Nat.div_lt_self hpos (by decide)) h
  · rw [hwindow]
    exact (List.take_sublist _ _).cons_cons _
  · exact Nat.div_lt_self (hpos.trans_le hlen) (by decide)
  · exact Nat.div_le_div_right hlen

/-- The median time past of an ancestor is not later. -/
theorem getMedianTimePast_le_of_suffix (h : ptr.Timely) (hne : ancestor ≠ []) (hsuf : ancestor <:+ ptr) :
    ancestor.getMedianTimePast ≤ ptr.getMedianTimePast := by
  induction ptr with
  | nil => exact absurd (List.suffix_nil.mp hsuf) hne
  | cons p pprev ih =>
      rcases List.suffix_cons_iff.mp hsuf with rfl | hsuf
      · exact le_rfl
      · cases pprev with
        | nil => exact absurd (List.suffix_nil.mp hsuf) hne
        | cons prev pprev => exact (ih h.2 hsuf).trans (getMedianTimePast_le_cons h.1)

end BlockPtr

/-- `AcceptBlock` takes a block on top of a chain only where the chain stays timely. -/
theorem CBlock.timely_of_checkContext {senv : SyncEnv} {s : NodeState} {block : CBlock}
    {pindexNew pindexPrev : CBlockIndex} {pprev : BlockPtr}
    (h : block.checkContext senv s pindexPrev pprev = .ok ()) (htime : pindexNew.nTime = block.nTime)
    (hprev : BlockPtr.Timely (pindexPrev :: pprev)) :
    BlockPtr.Timely (pindexNew :: pindexPrev :: pprev) := by
  unfold checkContext at h
  obtain ⟨-, h⟩ := Lib.seq_eq_ok.mp h
  obtain ⟨hmedian, -⟩ := Lib.seq_eq_ok.mp h
  rw [Lib.require_eq_ok, Bool.and_eq_true, decide_eq_true_eq] at hmedian
  refine ⟨?_, hprev⟩
  rw [htime]
  exact hmedian.1

namespace BlockPtr

/-- On a chain whose blocks are later than the median time past of their parents, the median time past
does not fall from parent to child, and a block is later than that of every block before it. -/
theorem medianTimePast_mono {ptr : BlockPtr} (h : ptr.Timely) :
    (∀ (p prev : CBlockIndex) (pprev : BlockPtr), p :: prev :: pprev <:+ ptr →
        getMedianTimePast (prev :: pprev) ≤ getMedianTimePast (p :: prev :: pprev)) ∧
      ∀ (p : CBlockIndex) (pprev ancestor : BlockPtr), p :: pprev <:+ ptr → ancestor ≠ [] →
        ancestor <:+ pprev → ancestor.getMedianTimePast < p.nTime := by
  constructor
  · intro p prev pprev hsuf
    exact getMedianTimePast_le_cons (h.suffix hsuf).1
  · intro p pprev ancestor hsuf hne hanc
    cases pprev with
    | nil => exact absurd (List.suffix_nil.mp hanc) hne
    | cons prev pprev =>
        obtain ⟨hlater, htimely⟩ := h.suffix hsuf
        exact lt_of_le_of_lt (getMedianTimePast_le_of_suffix htimely hne hanc) hlater

/-- The last block of four is earlier than its parent. -/
def backChain : BlockPtr :=
  [25, 30, 20, 10].map fun nTime => { hashBlock := nTime, nFile := 0, nBlockPos := 0, nTime := nTime }

theorem medianTimePast_mono_backChain :
    backChain.map CBlockIndex.nTime = [25, 30, 20, 10] ∧
      getMedianTimePast (backChain.drop 1) ≤ backChain.getMedianTimePast ∧
      ∀ ancestor : BlockPtr, ancestor ≠ [] → ancestor <:+ backChain.drop 1 → ancestor.getMedianTimePast < 25 := by
  have htimely : backChain.Timely := ⟨by decide, by decide, by decide, trivial⟩
  obtain ⟨hmono, hlater⟩ := medianTimePast_mono htimely
  exact ⟨rfl, hmono _ _ _ List.suffix_rfl, fun ancestor hne hanc =>
    hlater _ _ ancestor List.suffix_rfl hne hanc⟩

end BlockPtr

end ShinyCoin

/-
# Where a temporary range ends

After `BufferedReadSetTemporaryRange` the reader should return the blocks of the range, and then
NULL. It looks for the end of the range only at the end of a large read. A range that begins in
the current large read keeps it, and if it ends in the middle of it the reader goes on behind the
end of the range (`temporary_range_ends_iff`).
-/

import Cloudberry.AppendOnly.BufferedReadRefine

namespace Cloudberry.AppendOnly

open List BufferedRead BlockFile

variable {minimumHeaderLen maxBufferLen maxLargeReadLen : ℕ} {memory : List Byte}
  {F : BlockFile minimumHeaderLen maxBufferLen} {f : ReadFile} {st st' : BufferedRead} {c : Cursor}

/-- The readers that reads and ranges lead to. When NULL is returned the range is forgotten. -/
inductive Reached (F : BlockFile minimumHeaderLen maxBufferLen) (f : ReadFile)
    (maxLargeReadLen : ℕ) (memory : List Byte) : BufferedRead → Cursor → Prop
  | opened {st : BufferedRead}
      (hopen : (init maxBufferLen maxLargeReadLen memory).setFile f F.content.length = .ok st) :
      Reached F f maxLargeReadLen memory st F.opened
  | call {st st' : BufferedRead} {c c' : Cursor} {readCall : ReadCall} {out : Option Seen}
      (hst : Reached F f maxLargeReadLen memory st c) (hreads : Reads F c readCall out c')
      (hcall : st.call f minimumHeaderLen readCall = .ok (out, st')) :
      Reached F f maxLargeReadLen memory st' c'
  | finish {st st' : BufferedRead} {c : Cursor} (hst : Reached F f maxLargeReadLen memory st c)
      (hend : c.pos + c.len = c.limit)
      (hnull : st.getNextBuffer f minimumHeaderLen = .ok (none, st')) :
      Reached F f maxLargeReadLen memory st' ⟨c.limit, 0, F.content.length, false⟩

/-- The range is read block by block, and then NULL is returned. -/
def RangeEnds (F : BlockFile minimumHeaderLen maxBufferLen) (f : ReadFile) (st : BufferedRead)
    (b e : ℕ) : Prop :=
  ∀ calls outs c, (∀ readCall ∈ calls, readCall.isRead = true) →
    ReadsAll F ⟨b, 0, e, false⟩ calls outs c → c.pos + c.len = e →
    ∃ st₁ st₂, st.callAll f minimumHeaderLen (.setTemporaryRange b e :: calls) =
        .ok (none :: outs, st₁) ∧
      st₁.getNextBuffer f minimumHeaderLen = .ok (none, st₂)

/-- **At the end of the range NULL is returned only if the large read ends there**; the range is
forgotten then. -/
theorem BufferedRead.Inv.getNextBuffer_end (hinv : Inv F st c) (hend : c.pos + c.len = c.limit)
    (hheader : minimumHeaderLen ≤ maxBufferLen) :
    (st.Ends c.limit ∧ ∃ st', st.getNextBuffer f minimumHeaderLen = .ok (none, st') ∧
        Inv F st' ⟨c.limit, 0, F.content.length, false⟩) ∨
      (¬ st.Ends c.limit ∧ ∀ st', st.getNextBuffer f minimumHeaderLen ≠ .ok (none, st')) := by
  have hpos := hinv.pos_eq
  have hlen := hinv.len_eq
  have hfile : st.fileLen = F.content.length := hinv.fileLen_eq
  have hmax := hinv.maxBufferLen_eq
  unfold BufferedRead.getNextBuffer
  simp only [hinv.limit_eq]
  rw [if_neg (by omega)]
  by_cases hstart : st.largeReadPosition = c.limit
  · refine .inl ⟨.inr hstart, _, if_pos hstart, hinv.withBuffer _ 0 false _, ?_, rfl, ?_,
      fun hlt => ?_, hfile, F.isBoundary_length, nofun⟩ <;> simp only at * <;> omega
  rw [if_neg hstart]
  by_cases hall : st.bufferOffset + st.bufferLen = st.largeReadLen
  · have hnext : st.largeReadPosition + st.largeReadLen = c.limit := by omega
    have hzero : nextReadLen { st with
        largeReadPosition := st.largeReadPosition + st.largeReadLen, bufferOffset := 0,
        bufferLen := 0 } ((c.limit : ℤ) - (st.largeReadPosition + st.largeReadLen : ℕ)) =
        (min st.maxLargeReadLen 0 : ℕ) := nextReadLen_eq (by omega)
    simp only [if_pos hall, hzero, Nat.min_zero, Int.toNat_natCast]
    refine .inl ⟨.inl hnext.le, _, rfl, ⟨⟨hinv.maxBufferLen_eq, hinv.le_maxLargeReadLen,
      hinv.memory, hfile⟩, Nat.zero_le _, hinv.after_le, hinv.fileOff_eq, nofun,
      fun _ => hnext ▸ hinv.limit_isBoundary⟩, ?_, rfl, le_rfl, fun hlt => absurd hlt (lt_irrefl _),
      hfile, F.isBoundary_length, nofun⟩
    simp only
    omega
  rw [if_neg hall]
  refine .inr ⟨?_, fun st' hnull => ?_⟩
  · have hwithin := hinv.within
    rintro (hle | heq) <;> omega
  · split at hnull
    · split at hnull <;> cases hnull
    · cases hnull

/-- The rest of a range can be read: the next block is asked for and grown to its length. -/
theorem exists_reading {i j : ℕ} (hij : i ≤ j) (hj : j ≤ F.blocks.length)
    (hpos : c.pos + c.len = F.start i) (hlimit : c.limit = F.start j) :
    ∃ calls outs c', (∀ readCall ∈ calls, ReadCall.isRead readCall = true) ∧
      ReadsAll F c calls outs c' ∧ c'.pos + c'.len = c.limit := by
  induction hij using Nat.decreasingInduction generalizing c with
  | self => exact ⟨[], [], c, nofun, .nil c, hpos.trans hlimit.symm⟩
  | of_succ i hi ih =>
    have hb := getElem?_eq_getElem (hi.trans_le hj)
    have hsucc := start_succ hb
    have hmono : F.start (i + 1) ≤ F.start j := F.start_mono hi
    have hblock : F.BlockAt (c.pos + c.len) (F.blocks[i]).length := ⟨i, _, hb, hpos.symm, rfl⟩
    have hnext := Reads.next hblock (by omega)
    obtain ⟨calls, outs, c', hread, hall, hend⟩ := @ih
      ⟨c.pos + c.len, (F.blocks[i]).length, c.limit, true⟩ (by simp only; omega) hlimit
    rcases hblock.bounds.2.1.eq_or_lt with heq | hlt
    · rw [← heq] at hall
      exact ⟨_, _, c', forall_mem_cons.2 ⟨rfl, hread⟩, .cons hnext hall, hend⟩
    · exact ⟨_, _, c', forall_mem_cons.2 ⟨rfl, forall_mem_cons.2 ⟨rfl, hread⟩⟩,
        .cons hnext (.cons (.grow rfl hblock hlt le_rfl) hall), hend⟩

theorem exists_range {b e : ℕ} (hb : F.IsBoundary b) (he : F.IsBoundary e) (hle : b ≤ e) :
    ∃ calls outs c', (∀ readCall ∈ calls, ReadCall.isRead readCall = true) ∧
      ReadsAll F ⟨b, 0, e, false⟩ calls outs c' ∧ c'.pos + c'.len = e := by
  obtain ⟨i, hi, rfl⟩ := hb
  obtain ⟨j, hj, rfl⟩ := he
  rcases le_total i j with hij | hji
  · exact exists_reading hij hj rfl rfl
  · exact exists_reading le_rfl hi rfl (le_antisymm (F.start_mono hji) hle)

section

variable (hf : f.content = F.content) (hlarge : maxBufferLen ≤ maxLargeReadLen)
  (hmemory : memory.length = maxBufferLen + maxLargeReadLen)
  (hheader : minimumHeaderLen ≤ maxBufferLen) (hst : Reached F f maxLargeReadLen memory st c)
include hf hlarge hmemory hheader hst

theorem Reached.inv : Inv F st c := by
  induction hst with
  | opened hopen =>
    obtain ⟨_, hopen', hinv⟩ := inv_setFile hf hlarge hmemory.ge
    cases hopen.symm.trans hopen'
    exact hinv
  | call _ hreads hcall ih =>
    obtain ⟨_, hcall', hinv, -⟩ := ih.call hf hreads
    cases hcall.symm.trans hcall'
    exact hinv
  | finish _ hend hnull ih =>
    rcases ih.getNextBuffer_end hend hheader with ⟨-, _, hnull', hinv⟩ | ⟨-, hne⟩
    · cases hnull.symm.trans hnull'
      exact hinv
    · exact absurd hnull (hne _)

/-- **A temporary range ends where it was set to end** if and only if it begins before what is in
memory, or the current large read does not go over its end. -/
theorem temporary_range_ends_iff {b e : ℕ} (hb : F.IsBoundary b) (he : F.IsBoundary e)
    (hle : b ≤ e) : RangeEnds F f st b e ↔ (st.firstPosition ≤ b → st.Ends e) := by
  have hinv := hst.inv hf hlarge hmemory hheader
  obtain ⟨st₁, hrange, hinv₁, hiff⟩ := hinv.setTemporaryRange hf hb he hle
  rw [← hiff]
  -- what the end of each reading comes to
  have hall : ∀ {calls outs c'}, (∀ readCall ∈ calls, readCall.isRead = true) →
      ReadsAll F ⟨b, 0, e, false⟩ calls outs c' → c'.pos + c'.len = e →
      ((∃ st₂ st₃, st.callAll f minimumHeaderLen (.setTemporaryRange b e :: calls) =
          .ok (none :: outs, st₂) ∧ st₂.getNextBuffer f minimumHeaderLen = .ok (none, st₃)) ↔
        st₁.Ends e) := by
    intro calls outs c' hread hreads hend
    obtain ⟨st₂, hcalls, hinv₂, hkeep⟩ := hinv₁.callAll hf hreads
    obtain ⟨hlimit, hiff₂⟩ := hkeep hread
    have hrun : st.callAll f minimumHeaderLen (.setTemporaryRange b e :: calls) =
        .ok (none :: outs, st₂) := by
      simp [callAll, call, hrange, hcalls, bind, Except.bind, pure, Except.pure]
    rw [← hiff₂, hrun]
    rcases hinv₂.getNextBuffer_end (hend.trans hlimit.symm) hheader with
      ⟨hends, st₃, hnull, -⟩ | ⟨hends, hne⟩ <;> rw [hlimit] at hends
    · exact iff_of_true ⟨st₂, st₃, rfl, hnull⟩ hends
    · refine iff_of_false ?_ hends
      rintro ⟨_, st₃, heq, hnull⟩
      cases heq
      exact hne st₃ hnull
  constructor
  · intro hends
    obtain ⟨calls, outs, c', hread, hreads, hend⟩ := exists_range hb he hle
    exact (hall hread hreads hend).1 (hends calls outs c' hread hreads hend)
  · intro hends calls outs c' hread hreads hend
    exact (hall hread hreads hend).2 hends

end

/-- A range that goes over the end of the large read. -/
theorem temporary_range_threeBlocks : ∃ st, (init 3 4 (replicate 7 0)).setFile
      ⟨threeBlocks.content, fun _ => 0⟩ threeBlocks.content.length = .ok st ∧
    RangeEnds threeBlocks ⟨threeBlocks.content, fun _ => 0⟩ st 2 5 :=
  ⟨_, rfl, (temporary_range_ends_iff rfl (by decide : 3 ≤ 4)
    (rfl : (replicate 7 (0 : Byte)).length = 7) (by decide) (.opened rfl) ⟨1, by decide, rfl⟩
    ⟨2, by decide, rfl⟩ (by decide)).2 fun _ => .inl (by decide)⟩

/-- The whole file is in the large read: the block behind the range is returned, not NULL. -/
theorem temporary_range_overrun : ∃ st₀ st, (init 3 7 (replicate 10 0)).setFile
      ⟨threeBlocks.content, fun _ => 0⟩ threeBlocks.content.length = .ok st₀ ∧
    st₀.callAll ⟨threeBlocks.content, fun _ => 0⟩ 2
        [.setTemporaryRange 0 2, .getNextBuffer, .getNextBuffer] =
      .ok ([none, some ⟨0, [1, 2]⟩, some ⟨2, [3, 4]⟩], st) :=
  ⟨_, _, rfl, rfl⟩

end Cloudberry.AppendOnly

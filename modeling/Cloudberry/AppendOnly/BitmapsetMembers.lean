/-
# The members of a bitmap set

`bms_num_members` and `bms_next_member` of `nodes/bitmapset.c`. Both go over the words of a
set, the one adding up set bits, the other looking for the first set bit behind a position.
`members` is the set they are about: `numMembers_eq` says that the count is its size and
`nextMember_first` and `nextMember_behind` that the search finds its least member behind the
position.
-/

import Cloudberry.AppendOnly.Bitmapset
import Cloudberry.Lib.NextMember
import Mathlib.Data.Nat.Count

namespace Cloudberry.AppendOnly

open List BitVec Nat NextMember

variable {bw : BitmapWordSize}

/-- `bmw_popcount` -/
def popcount (w : BitmapWord bw) : ℕ := count (fun i => w.getLsbD i = true) bw.bits

/-- `bmw_rightmost_one_pos` -/
def rightmostOnePos (w : BitmapWord bw) : ℕ := (range bw.bits).findIdx w.getLsbD

namespace Bitmapset

variable (a : Bitmapset bw)

/-- `bms_num_members` -/
def numMembers : ℕ :=
  match a with
  | none => 0
  | some words => words.foldl (fun result w => if w ≠ 0 then result + popcount w else result) 0

/-- The loop of `bms_next_member` over the words from `wordnum` on. -/
def nextMemberFrom (mask : BitmapWord bw) (wordnum : ℕ) : List (BitmapWord bw) → Option ℕ
  | [] => none
  | w :: rest =>
    let w := w &&& mask
    if w ≠ 0 then some (wordnum * bw.bits + rightmostOnePos w)
    else nextMemberFrom (allOnes bw.bits) (wordnum + 1) rest

/-- `bms_next_member`; its answer -2 is `none`. -/
def nextMember (prevbit : ℤ) : Option ℕ :=
  match a with
  | none => none
  | some words =>
    let prevbit := (prevbit + 1).toNat
    nextMemberFrom (allOnes bw.bits <<< (prevbit % bw.bits)) (prevbit / bw.bits)
      (words.drop (prevbit / bw.bits))

def members : Finset ℕ :=
  (Finset.range (a.words.length * bw.bits)).filter fun x => a.isMember x = true

theorem lt_of_isMember {a : Bitmapset bw} {x : ℕ} (hx : a.isMember x = true) :
    x < a.words.length * bw.bits := by
  rcases a with _ | words
  · cases hx
  rw [isMember_some] at hx
  by_contra hge
  have hnone : words[x / bw.bits]? = none := by
    apply List.getElem?_eq_none
    exact (le_div_iff_mul_le bw.bits_pos).2 (not_lt.1 hge)
  rw [hnone] at hx
  simp at hx

@[simp] theorem mem_members {a : Bitmapset bw} {x : ℕ} : x ∈ a.members ↔ a.isMember x = true := by
  rw [members, Finset.mem_filter, Finset.mem_range]
  exact ⟨And.right, fun hx => ⟨lt_of_isMember hx, hx⟩⟩

/-! ### Counting -/

theorem isMember_mul_add (words : List (BitmapWord bw)) (k : ℕ) {i : ℕ} (hi : i < bw.bits) :
    isMember (k * bw.bits + i) (some words) = (words[k]?.getD 0).getLsbD i := by
  have hdiv : (k * bw.bits + i) / bw.bits = k := by
    rw [mul_comm, mul_add_div bw.bits_pos, div_eq_of_lt hi, add_zero]
  have hmod : (k * bw.bits + i) % bw.bits = i := by
    rw [mul_comm, mul_add_mod, mod_eq_of_lt hi]
  rw [isMember_some, hdiv, hmod]

theorem isMember_append_singleton {words : List (BitmapWord bw)} {x : ℕ}
    (hx : x < words.length * bw.bits) (w : BitmapWord bw) :
    isMember x (some (words ++ [w])) = isMember x (some words) := by
  rw [isMember_some, isMember_some, getElem?_append_left ((div_lt_iff_lt_mul bw.bits_pos).2 hx)]

theorem count_congr {p q : ℕ → Prop} [DecidablePred p] [DecidablePred q] {n : ℕ}
    (hpq : ∀ k < n, p k ↔ q k) : count p n = count q n :=
  le_antisymm (count_mono_left fun k hk => (hpq k hk).1) (count_mono_left fun k hk => (hpq k hk).2)

theorem popcount_zero : popcount (0 : BitmapWord bw) = 0 := by
  simp [popcount]

theorem count_isMember (words : List (BitmapWord bw)) :
    count (fun x => isMember x (some words) = true) (words.length * bw.bits) =
      numMembers (some words) := by
  induction words using reverseRecOn with
  | nil => simp [numMembers]
  | append_singleton words w ih =>
    have hlen : (words ++ [w]).length * bw.bits = words.length * bw.bits + bw.bits := by
      rw [length_append, length_singleton, Nat.add_mul, Nat.one_mul]
    have hlow : count (fun x => isMember x (some (words ++ [w])) = true)
        (words.length * bw.bits) = numMembers (some words) := by
      rw [← ih]
      exact count_congr fun x hx => by rw [isMember_append_singleton hx]
    have hhigh : count (fun i => isMember (words.length * bw.bits + i)
        (some (words ++ [w])) = true) bw.bits = popcount w := by
      refine count_congr fun i hi => ?_
      rw [isMember_mul_add _ _ hi, getElem?_concat_length, Option.getD_some]
    rw [hlen, count_add, hlow, hhigh]
    simp only [numMembers, foldl_append, foldl_cons, foldl_nil]
    split_ifs with hw
    · rfl
    · rw [not_not.1 hw, popcount_zero, add_zero]

theorem numMembers_eq : a.numMembers = a.members.card := by
  rcases a with _ | words
  · simp [numMembers, members, words]
  · rw [← count_isMember, count_eq_card_filter_range]
    rfl

/-! ### Searching -/

theorem rightmostOnePos_spec {w : BitmapWord bw} (hw : w ≠ 0) :
    rightmostOnePos w < bw.bits ∧ w.getLsbD (rightmostOnePos w) = true ∧
      ∀ i < rightmostOnePos w, w.getLsbD i = false := by
  have hbit : ∃ i ∈ range bw.bits, w.getLsbD i = true := by
    by_contra hnone
    refine hw (eq_of_getLsbD_eq fun i hi => ?_)
    have hunset : w.getLsbD i = false :=
      Bool.eq_false_iff.2 fun hset => hnone ⟨i, mem_range.2 hi, hset⟩
    rw [hunset]
    exact getLsbD_zero.symm
  have hlt := findIdx_lt_length_of_exists hbit
  refine ⟨by simpa [rightmostOnePos] using hlt, ?_, fun i hi => ?_⟩
  · have hset := findIdx_getElem (w := hlt)
    rwa [getElem_range] at hset
  · have hunset := not_of_lt_findIdx hi
    rwa [getElem_range] at hunset

/-- What the search from a word on finds, if there is no member at or behind `low` before that
word and `mask` has the bits of the word at or behind `low`. -/
theorem nextMemberFrom_spec {words : List (BitmapWord bw)} {low : ℕ} {last : WithBot ℕ}
    (hlow : ∀ x, last < WithBot.some x ↔ low ≤ x) {rest : List (BitmapWord bw)}
    {mask : BitmapWord bw} {wordnum : ℕ} (hrest : words.drop wordnum = rest)
    (hmask : ∀ i < bw.bits, mask.getLsbD i = decide (low ≤ wordnum * bw.bits + i))
    (hstart : low < (wordnum + 1) * bw.bits)
    (hbefore : ∀ x, low ≤ x → isMember x (some words) = true → wordnum ≤ x / bw.bits) :
    IsNext (members (some words)) last (nextMemberFrom mask wordnum rest) := by
  induction rest generalizing mask wordnum with
  | nil =>
    intro x hx hlast
    have hmem := mem_members.1 hx
    have hlt := (div_lt_iff_lt_mul bw.bits_pos).2 (lt_of_isMember hmem)
    have hlen : words.length ≤ wordnum := drop_eq_nil_iff.1 hrest
    exact absurd (hbefore x ((hlow x).1 hlast) hmem) (not_le.2 (lt_of_lt_of_le hlt hlen))
  | cons w rest ih =>
    have hword : words[wordnum]? = some w := by
      rw [← head?_drop, hrest, head?_cons]
    -- the bits of the masked word are the members at or behind `low` in this word
    have hbit : ∀ i < bw.bits, (w &&& mask).getLsbD i =
        (isMember (wordnum * bw.bits + i) (some words) &&
          decide (low ≤ wordnum * bw.bits + i)) := by
      intro i hi
      rw [getLsbD_and, hmask i hi, isMember_mul_add _ _ hi, hword, Option.getD_some]
    have hinWord : ∀ x, low ≤ x → isMember x (some words) = true → x / bw.bits = wordnum →
        (w &&& mask).getLsbD (x % bw.bits) = true := by
      intro x hx hmem hdiv
      have hsplit : wordnum * bw.bits + x % bw.bits = x := by
        rw [← hdiv, mul_comm, div_add_mod]
      rw [hbit _ (mod_lt x bw.bits_pos), hsplit, hmem, decide_eq_true hx, Bool.and_true]
    by_cases hzero : w &&& mask = 0
    · rw [nextMemberFrom, if_neg (not_not.2 hzero)]
      have hstart' : low < (wordnum + 1 + 1) * bw.bits := by
        rw [add_mul (wordnum + 1)]
        omega
      refine ih ?_ ?_ hstart' ?_
      · rw [← drop_drop, hrest, drop_one, tail_cons]
      · intro i hi
        rw [getLsbD_allOnes, decide_eq_true hi, decide_eq_true (by omega)]
      · intro x hx hmem
        refine lt_of_le_of_ne (hbefore x hx hmem) fun hdiv => ?_
        have hset := hinWord x hx hmem hdiv.symm
        rw [hzero] at hset
        simp at hset
    · obtain ⟨hpos, hset, hleast⟩ := rightmostOnePos_spec hzero
      rw [hbit _ hpos, Bool.and_eq_true, decide_eq_true_eq] at hset
      rw [nextMemberFrom, if_pos hzero]
      refine ⟨mem_members.2 hset.1, (hlow _).2 hset.2, fun x hx hlast => ?_⟩
      have hmem := mem_members.1 hx
      have hx' := (hlow x).1 hlast
      have hdivmod := div_add_mod' x bw.bits
      rcases eq_or_lt_of_le (hbefore x hx' hmem) with hdiv | hdiv
      · -- in this word the rightmost bit is the least
        have hle : rightmostOnePos (w &&& mask) ≤ x % bw.bits := by
          refine not_lt.1 fun hlt => ?_
          have hunset := hleast _ hlt
          rw [hinWord x hx' hmem hdiv.symm] at hunset
          cases hunset
        rw [hdiv]
        omega
      · have hmul : (wordnum + 1) * bw.bits ≤ x / bw.bits * bw.bits := mul_le_mul_right bw.bits hdiv
        rw [Nat.add_mul] at hmul
        omega

theorem nextMember_isNext {prevbit : ℤ} {last : WithBot ℕ}
    (hlast : ∀ x, last < WithBot.some x ↔ (prevbit + 1).toNat ≤ x) (a : Bitmapset bw) :
    IsNext a.members last (a.nextMember prevbit) := by
  rcases a with _ | _
  · intro x hx
    cases mem_members.1 hx
  rw [nextMember]
  generalize (prevbit + 1).toNat = low at hlast
  have hpos := bw.bits_pos
  have hdivmod := div_add_mod' low bw.bits
  have hmod := mod_lt low hpos
  refine nextMemberFrom_spec hlast rfl (fun i hi => ?_) ?_ fun x hx _ => Nat.div_le_div_right hx
  · rw [getLsbD_shiftLeft, getLsbD_allOnes, decide_eq_true hi, Bool.true_and,
      decide_eq_true (show i - low % bw.bits < bw.bits by omega), Bool.and_true]
    by_cases hlt : i < low % bw.bits
    · rw [decide_eq_true hlt, decide_eq_false (by omega), Bool.not_true]
    · rw [decide_eq_false hlt, decide_eq_true (by omega), Bool.not_false]
  · rw [Nat.add_mul]
    omega

theorem nextMember_first : IsNext a.members ⊥ (a.nextMember (-1)) := by
  refine nextMember_isNext (fun x => ?_) a
  exact ⟨fun _ => zero_le x, fun _ => WithBot.bot_lt_coe x⟩

theorem nextMember_behind (x : ℕ) : IsNext a.members (WithBot.some x) (a.nextMember x) := by
  refine nextMember_isNext (fun y => ?_) a
  rw [WithBot.coe_lt_coe]
  omega

end Bitmapset

end Cloudberry.AppendOnly

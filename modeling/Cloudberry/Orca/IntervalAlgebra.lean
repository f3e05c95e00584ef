/-
# The set algebra of interval constraints

An element of the order is known by the cuts below it, so the constraints are compared at an
arbitrary set of cuts that is closed downwards (`Has`). The three loops have this in common: what
is in the result so far lies before all that is still to come (`Before`), and no element gets lost
or is added when a range is dealt with.
-/

import Cloudberry.Orca.ConstraintInterval

namespace Cloudberry.Orca

namespace CConstraintInterval

open CRange List

section loops

variable {α : Type*} [LinearOrder α]

def Ordered (l : List (CRange α)) : Prop :=
  (l.Pairwise fun r s => r.hi ≤ s.lo) ∧ ∀ r ∈ l, r.NonEmpty

/-- All of the first list lies before all of the second one. -/
def Before (l m : List (CRange α)) : Prop := ∀ r ∈ l, ∀ s ∈ m, r.hi ≤ s.lo

/-- An element with these cuts below it is in one of the ranges. -/
def Has (p : Cut α → Prop) (l : List (CRange α)) : Prop := ∃ r ∈ l, p r.lo ∧ ¬ p r.hi

def Downward (p : Cut α → Prop) : Prop := ∀ c d, c ≤ d → p d → p c

variable {r s : CRange α} {l m fst snd new : List (CRange α)} {p : Cut α → Prop}

omit [LinearOrder α] in
@[simp] theorem has_nil : ¬ Has p ([] : List (CRange α)) := by simp [Has]

omit [LinearOrder α] in
@[simp] theorem has_cons : Has p (r :: l) ↔ (p r.lo ∧ ¬ p r.hi) ∨ Has p l := by simp [Has]

omit [LinearOrder α] in
@[simp] theorem has_append : Has p (l ++ m) ↔ Has p l ∨ Has p m := by
  simp [Has, or_and_right, exists_or]

theorem ordered_nil : Ordered ([] : List (CRange α)) := ⟨List.Pairwise.nil, nofun⟩

theorem ordered_cons : Ordered (r :: l) ↔ (∀ s ∈ l, r.hi ≤ s.lo) ∧ r.NonEmpty ∧ Ordered l := by
  simp only [Ordered, pairwise_cons, forall_mem_cons]
  tauto

theorem ordered_append : Ordered (l ++ m) ↔ Ordered l ∧ Ordered m ∧ Before l m := by
  simp only [Ordered, Before, pairwise_append, forall_mem_append]
  tauto

/-- What a range from `lo` to `hi` adds to the result. -/
structure Appended (new : List (CRange α)) (lo hi : Cut α) (new' : List (CRange α)) : Prop where
  ordered : Ordered new'
  from_new : ∀ r ∈ new', r ∈ new ∨ r.hi = hi
  has : ∀ p, Downward p → (Has p new' ↔ Has p new ∨ (p lo ∧ ¬ p hi))

theorem appended_append (hnew : Ordered new) (hr : r.NonEmpty) (hbefore : ∀ s ∈ new, s.hi ≤ r.lo) :
    Appended new r.lo r.hi (new ++ [r]) where
  ordered := by
    refine ordered_append.2 ⟨hnew, ordered_cons.2 ⟨nofun, hr, ordered_nil⟩, fun s hs t ht => ?_⟩
    rw [mem_singleton.1 ht]
    exact hbefore s hs
  from_new := fun s hs => by
    rcases mem_append.1 hs with hs | hs
    · exact .inl hs
    · rw [mem_singleton.1 hs]
      exact .inr rfl
  has := fun p _ => by simp

/-- **One range is put behind the result**, or its last range is extended by it. -/
theorem appendOrExtend_ok {lo hi : Cut α} {o : Option (CRange α)} (hnew : Ordered new)
    (hbefore : ∀ s ∈ new, s.hi ≤ lo) (ho : Spans lo hi o) :
    ∃ new', appendOrExtend new o = .ok new' ∧ Appended new lo hi new' := by
  cases o with
  | none =>
    have hle : hi ≤ lo := ho
    refine ⟨new, rfl, hnew, fun s hs => .inl hs, fun p hp => ?_⟩
    tauto
  | some r =>
    obtain ⟨rfl, rfl, hr⟩ := ho
    unfold appendOrExtend
    rcases eq_nil_or_concat new with rfl | ⟨front, last, rfl⟩
    · exact ⟨_, rfl, appended_append hnew hr hbefore⟩
    simp only [concat_eq_append, getLast?_append, getLast?_singleton,
      Option.some_or, dropLast_concat] at hnew hbefore ⊢
    have hlast : last.hi ≤ r.lo := hbefore last (mem_append_right _ mem_cons_self)
    rcases prngExtend_ok hlast with ⟨-, hext⟩ | ⟨htouch, t, hext, hlo, hhi⟩
    · rw [hext]
      exact ⟨_, rfl, appended_append hnew hr hbefore⟩
    rw [hext]
    obtain ⟨hfront, _, hfrontLast⟩ := ordered_append.1 hnew
    have hlastNonEmpty : last.NonEmpty := hnew.2 last (mem_append_right _ mem_cons_self)
    have ht : t.NonEmpty := by
      unfold NonEmpty
      rw [hlo, hhi]
      exact (lt_of_lt_of_le hlastNonEmpty hlast).trans hr
    have hfrontT : ∀ s ∈ front, s.hi ≤ t.lo := fun s hs => by
      rw [hlo]
      exact hfrontLast s hs last mem_cons_self
    have happ := appended_append hfront ht hfrontT
    refine ⟨_, rfl, happ.ordered, fun s hs => ?_, fun p hp => ?_⟩
    · rcases happ.from_new s hs with hs | hs
      · exact .inl (mem_append_left _ hs)
      · exact .inr (hs.trans hhi)
    · rw [happ.has p hp, has_append, has_cons, hlo, hhi]
      have hcut : p last.hi → p last.lo := hp _ _ (le_of_lt hlastNonEmpty)
      have hcut' : p r.hi → p last.hi := hp _ _ (hlast.trans (le_of_lt hr))
      have hnil : ¬ Has p ([] : List (CRange α)) := has_nil
      grind only

theorem addRemainingRanges_ok (hl : Ordered l) (hnew : Ordered new) (hbefore : Before new l) :
    ∃ new', addRemainingRanges l new = .ok new' ∧ Ordered new' ∧
      ∀ p, Downward p → (Has p new' ↔ Has p new ∨ Has p l) := by
  induction l generalizing new with
  | nil => exact ⟨new, rfl, hnew, fun p _ => by simp⟩
  | cons r l ih =>
    obtain ⟨hrl, hr, hl⟩ := ordered_cons.1 hl
    obtain ⟨new', happend, happ⟩ := appendOrExtend_ok (o := some r) hnew
      (fun s hs => hbefore s hs r mem_cons_self) ⟨rfl, rfl, hr⟩
    have hbefore' : Before new' l := fun s hs t ht => by
      rcases happ.from_new s hs with hs | hs
      · exact hbefore s hs t (mem_cons_of_mem _ ht)
      · rw [hs]
        exact hrl t ht
    obtain ⟨new'', hadd, hordered, hhas⟩ := ih hl happ.ordered hbefore'
    refine ⟨new'', ?_, hordered, fun p hp => ?_⟩
    · unfold addRemainingRanges
      rw [happend]
      exact hadd
    · rw [hhas p hp, happ.has p hp, has_cons]
      tauto

theorem Downward.max_iff (hp : Downward p) {c d : Cut α} : p (max c d) ↔ p c ∧ p d := by
  rcases le_total c d with hle | hle
  · rw [max_eq_right hle]
    exact ⟨fun h => ⟨hp _ _ hle h, h⟩, fun h => h.2⟩
  · rw [max_eq_left hle]
    exact ⟨fun h => ⟨h, hp _ _ hle h⟩, fun h => h.1⟩

theorem Downward.min_iff (hp : Downward p) {c d : Cut α} : p (min c d) ↔ p c ∨ p d := by
  rcases le_total c d with hle | hle
  · rw [min_eq_left hle]
    exact ⟨.inl, fun h => h.elim (fun h => h) (hp _ _ hle)⟩
  · rw [min_eq_right hle]
    exact ⟨.inr, fun h => h.elim (hp _ _ hle) fun h => h⟩

theorem has_toList {lo hi : Cut α} {o : Option (CRange α)} (ho : Spans lo hi o) (hp : Downward p) :
    Has p o.toList ↔ p lo ∧ ¬ p hi := by
  cases o with
  | none => simpa using hp _ _ ho
  | some t =>
    obtain ⟨rfl, rfl, -⟩ := ho
    simp

theorem not_has_of_le {c : Cut α} (hp : Downward p) (hle : ∀ s ∈ l, c ≤ s.lo) (hc : ¬ p c) :
    ¬ Has p l := by
  rintro ⟨s, hs, hlo, -⟩
  exact hc (hp _ _ (hle s hs) hlo)

theorem intersect_step {o : Option (CRange α)} {out : List (CRange α)} (hsm : Ordered (s :: m))
    (hle : r.hi ≤ s.hi) (ho : Spans (max r.lo s.lo) (min r.hi s.hi) o) (hout : Ordered out)
    (hbehind : ∀ t ∈ out, r.hi ≤ t.lo)
    (hhas : ∀ p, Downward p → (Has p out ↔ Has p l ∧ Has p (s :: m))) :
    Ordered (o.toList ++ out) ∧ (∀ t ∈ o.toList, r.lo ≤ t.lo ∧ s.lo ≤ t.lo) ∧
      ∀ p, Downward p → (Has p (o.toList ++ out) ↔ Has p (r :: l) ∧ Has p (s :: m)) := by
  rw [min_eq_left hle] at ho
  refine ⟨ordered_append.2 ⟨?_, hout, ?_⟩, ?_, fun p hp => ?_⟩
  · cases o with
    | none => exact ordered_nil
    | some t =>
      obtain ⟨hlo, hhi, _⟩ := ho
      refine ordered_cons.2 ⟨nofun, ?_, ordered_nil⟩
      unfold NonEmpty
      rwa [hlo, hhi]
  · intro t ht u hu
    cases o with
    | none => cases ht
    | some v =>
      rw [mem_singleton.1 ht, ho.2.1]
      exact hbehind u hu
  · intro t ht
    cases o with
    | none => cases ht
    | some v =>
      rw [mem_singleton.1 ht, ho.1]
      exact ⟨le_max_left _ _, le_max_right _ _⟩
  · rw [has_append, has_toList ho hp, hp.max_iff, hhas p hp, has_cons, has_cons]
    have hdown : p s.hi → p r.hi := hp _ _ hle
    have hnot : ¬ p r.hi → ¬ Has p m := fun hr =>
      not_has_of_le hp (fun t ht => hle.trans ((ordered_cons.1 hsm).1 t ht)) hr
    grind only

variable (new) in
/-- **The loop of the intersection.** -/
theorem intersectLoop_ok (hfst : Ordered fst) (hsnd : Ordered snd) :
    ∃ out, intersectLoop fst snd new = .ok (new ++ out) ∧ Ordered out ∧
      (∀ c, (∀ r ∈ fst, c ≤ r.lo) → ∀ t ∈ out, c ≤ t.lo) ∧
      (∀ c, (∀ s ∈ snd, c ≤ s.lo) → ∀ t ∈ out, c ≤ t.lo) ∧
      ∀ p, Downward p → (Has p out ↔ Has p fst ∧ Has p snd) := by
  fun_induction intersectLoop fst snd new with
  | case1 new r fst s snd hends e herr =>
    obtain ⟨o, ho, -⟩ := prngIntersect_ok (ordered_cons.1 hfst).2.1 (ordered_cons.1 hsnd).2.1
    rw [herr] at ho
    cases ho
  | case2 new r fst s snd hends o ho ih =>
    obtain ⟨o', ho', hspans⟩ := prngIntersect_ok (ordered_cons.1 hfst).2.1 (ordered_cons.1 hsnd).2.1
    rw [ho] at ho'
    cases ho'
    have hle : r.hi ≤ s.hi := by
      rcases fEndsAfter_iff.1 hends with hlt | ⟨hs, hr⟩
      · exact hlt.le
      · rw [hr, hs]
    obtain ⟨out, hrun, hout, hbehind, hbehind', hhas⟩ := ih (ordered_cons.1 hfst).2.2 hsnd
    obtain ⟨hordered, hfrom, hhas'⟩ := intersect_step hsnd hle hspans hout
      (hbehind _ (ordered_cons.1 hfst).1) hhas
    refine ⟨o.toList ++ out, ?_, hordered, ?_, ?_, hhas'⟩
    · rw [hrun, append_assoc]
    · intro c hc t ht
      rcases mem_append.1 ht with ht | ht
      · exact (hc r mem_cons_self).trans (hfrom t ht).1
      · exact hbehind c (fun u hu => hc u (mem_cons_of_mem _ hu)) t ht
    · intro c hc t ht
      rcases mem_append.1 ht with ht | ht
      · exact (hc s mem_cons_self).trans (hfrom t ht).2
      · exact hbehind' c hc t ht
  | case3 new r fst s snd hends e herr =>
    obtain ⟨o, ho, -⟩ := prngIntersect_ok (ordered_cons.1 hsnd).2.1 (ordered_cons.1 hfst).2.1
    rw [herr] at ho
    cases ho
  | case4 new r fst s snd hends o ho ih =>
    obtain ⟨o', ho', hspans⟩ := prngIntersect_ok (ordered_cons.1 hsnd).2.1 (ordered_cons.1 hfst).2.1
    rw [ho] at ho'
    cases ho'
    have hle : s.hi ≤ r.hi := le_of_not_gt fun hlt => hends (fEndsAfter_iff.2 (.inl hlt))
    obtain ⟨out, hrun, hout, hbehind, hbehind', hhas⟩ := ih hfst (ordered_cons.1 hsnd).2.2
    obtain ⟨hordered, hfrom, hhas'⟩ := intersect_step hfst hle hspans hout
      (hbehind' _ (ordered_cons.1 hsnd).1) (fun p hp => (hhas p hp).trans and_comm)
    refine ⟨o.toList ++ out, ?_, hordered, ?_, ?_, fun p hp => (hhas' p hp).trans and_comm⟩
    · rw [hrun, append_assoc]
    · intro c hc t ht
      rcases mem_append.1 ht with ht | ht
      · exact (hc r mem_cons_self).trans (hfrom t ht).2
      · exact hbehind c hc t ht
    · intro c hc t ht
      rcases mem_append.1 ht with ht | ht
      · exact (hc s mem_cons_self).trans (hfrom t ht).1
      · exact hbehind' c (fun u hu => hc u (mem_cons_of_mem _ hu)) t ht
  | case5 fst snd new hend =>
    refine ⟨[], by rw [append_nil], ordered_nil, nofun, nofun, fun p _ => ?_⟩
    cases fst with
    | nil => simp
    | cons r fst =>
      cases snd with
      | nil => simp
      | cons s snd => exact (hend r fst s snd rfl rfl).elim

/-- What the loop of the union leaves. -/
structure UnionLeaves (fst snd new : List (CRange α)) (merged : Merged α) : Prop where
  done : merged.fst = [] ∨ merged.snd = []
  orderedFst : Ordered merged.fst
  orderedSnd : Ordered merged.snd
  orderedNew : Ordered merged.new
  beforeFst : Before merged.new merged.fst
  beforeSnd : Before merged.new merged.snd
  has : ∀ p, Downward p → (Has p merged.new ∨ Has p merged.fst ∨ Has p merged.snd ↔
    Has p new ∨ Has p fst ∨ Has p snd)

theorem Before.tail (h : Before new (r :: l)) : Before new l :=
  fun t ht u hu => h t ht u (mem_cons_of_mem _ hu)

theorem appendLeft_ok {o : Option (CRange α)} (hrl : Ordered (r :: l)) (hnew : Ordered new)
    (hbefore : Before new (r :: l)) (ho : Spans r.lo (min r.hi s.lo) o) :
    ∃ new', appendOrExtend new o = .ok new' ∧ Ordered new' ∧ Before new' l ∧
      (∀ t ∈ new', t ∈ new ∨ t.hi ≤ s.lo) ∧
      ∀ p, Downward p → (Has p new' ↔ Has p new ∨ (p r.lo ∧ ¬ p r.hi ∧ ¬ p s.lo)) := by
  obtain ⟨hrl', _, _⟩ := ordered_cons.1 hrl
  obtain ⟨new', happend, happ⟩ := appendOrExtend_ok hnew
    (fun t ht => hbefore t ht r mem_cons_self) ho
  refine ⟨new', happend, happ.ordered, fun t ht u hu => ?_, fun t ht => ?_, fun p hp => ?_⟩
  · rcases happ.from_new t ht with ht | ht
    · exact hbefore.tail t ht u hu
    · rw [ht]
      exact (min_le_left _ _).trans (hrl' u hu)
  · refine (happ.from_new t ht).imp_right fun ht => ?_
    rw [ht]
    exact min_le_right _ _
  · rw [happ.has p hp, hp.min_iff, not_or]

theorem before_of_le {new' : List (CRange α)} (hsm : Ordered (s :: m)) (hbefore : Before new (s :: m))
    (h : ∀ t ∈ new', t ∈ new ∨ t.hi ≤ s.lo) : Before new' (s :: m) := by
  obtain ⟨hsm', hs, -⟩ := ordered_cons.1 hsm
  intro t ht u hu
  rcases h t ht with ht | ht
  · exact hbefore t ht u hu
  · rcases mem_cons.1 hu with rfl | hu
    · exact ht
    · exact ht.trans ((le_of_lt hs).trans (hsm' u hu))

/-- **The loop of the union.** -/
theorem unionLoop_ok (hfst : Ordered fst) (hsnd : Ordered snd) (hnew : Ordered new)
    (hbefore : Before new fst) (hbefore' : Before new snd) :
    ∃ merged, unionLoop fst snd new = .ok merged ∧ UnionLeaves fst snd new merged := by
  fun_induction unionLoop fst snd new with
  | case1 new r fst s snd hends e herr =>
    obtain ⟨new', hok, -⟩ := appendLeft_ok hfst hnew hbefore
      (prngDifferenceLeft_spans (ordered_cons.1 hfst).2.1)
    rw [herr] at hok
    cases hok
  | case2 new r fst s snd hends new' hok ih =>
    obtain ⟨new'', hok', hordered, hb, hb', hhas⟩ := appendLeft_ok hfst hnew hbefore
      (prngDifferenceLeft_spans (ordered_cons.1 hfst).2.1)
    rw [hok] at hok'
    cases hok'
    obtain ⟨merged, hrun, hleaves⟩ := ih (ordered_cons.1 hfst).2.2 hsnd hordered hb
      (before_of_le hsnd hbefore' hb')
    refine ⟨merged, hrun, { hleaves with has := fun p hp => ?_ }⟩
    rw [hleaves.has p hp, has_cons, has_cons]
    have hle : p s.hi → p r.hi := by
      rcases fEndsAfter_iff.1 hends with hlt | ⟨hs, hr⟩
      · exact hp _ _ hlt.le
      · rw [hr, hs]
        exact fun h => h
    grind only
  | case3 new r fst s snd hends e herr =>
    obtain ⟨new', hok, -⟩ := appendLeft_ok hsnd hnew hbefore'
      (prngDifferenceLeft_spans (ordered_cons.1 hsnd).2.1)
    rw [herr] at hok
    cases hok
  | case4 new r fst s snd hends new' hok ih =>
    obtain ⟨new'', hok', hordered, hb', hb, hhas⟩ := appendLeft_ok hsnd hnew hbefore'
      (prngDifferenceLeft_spans (ordered_cons.1 hsnd).2.1)
    rw [hok] at hok'
    cases hok'
    obtain ⟨merged, hrun, hleaves⟩ := ih hfst (ordered_cons.1 hsnd).2.2 hordered
      (before_of_le hfst hbefore hb) hb'
    refine ⟨merged, hrun, { hleaves with has := fun p hp => ?_ }⟩
    rw [hleaves.has p hp, has_cons, has_cons]
    have hle : p r.hi → p s.hi :=
      hp _ _ (le_of_not_gt fun hlt => hends (fEndsAfter_iff.2 (.inl hlt)))
    grind only
  | case5 fst snd new hend =>
    refine ⟨_, rfl, ?_, hfst, hsnd, hnew, hbefore, hbefore', fun p _ => Iff.rfl⟩
    cases fst with
    | nil => exact .inl rfl
    | cons r fst =>
      cases snd with
      | nil => exact .inr rfl
      | cons s snd => exact (hend r fst s snd rfl rfl).elim

theorem unionLoop_addRemainingRanges (hfst : Ordered fst) (hsnd : Ordered snd) :
    ∃ merged new' new'', unionLoop fst snd [] = .ok merged ∧
      addRemainingRanges merged.fst merged.new = .ok new' ∧
      addRemainingRanges merged.snd new' = .ok new'' ∧ Ordered new'' ∧
      ∀ p, Downward p → (Has p new'' ↔ Has p fst ∨ Has p snd) := by
  obtain ⟨merged, hrun, h⟩ := unionLoop_ok hfst hsnd ordered_nil nofun nofun
  obtain ⟨new', hadd, hnew', hhas'⟩ := addRemainingRanges_ok h.orderedFst h.orderedNew h.beforeFst
  -- at most one of the lists has something left
  have hbefore : Before new' merged.snd := by
    rcases h.done with hnil | hnil
    · rw [hnil] at hadd
      cases hadd
      exact h.beforeSnd
    · rw [hnil]
      exact fun _ _ => nofun
  obtain ⟨new'', hadd', hnew'', _⟩ := addRemainingRanges_ok h.orderedSnd hnew' hbefore
  refine ⟨merged, new', new'', hrun, hadd, hadd', hnew'', fun p hp => ?_⟩
  have hall := h.has p hp
  have hnil : ¬ Has p ([] : List (CRange α)) := has_nil
  grind only

/-- The rest of the first list; the residual stands for its head. -/
def withResidual (fst : List (CRange α)) : Option (CRange α) → List (CRange α)
  | none => fst
  | some residual => residual :: fst.tail

omit [LinearOrder α] in
theorem withResidual_cons (residual : Option (CRange α)) :
    withResidual (r :: l) residual = residual.getD r :: l := by
  cases residual <;> rfl

/-- The second range ends first and is not before the other one: what is left of that is the
residual. -/
theorem prangeDiffWithRightResidual_ok (hr : r.NonEmpty) (hends : s.hi < r.hi)
    (hover : r.lo < s.hi) :
    ∃ o t, prangeDiffWithRightResidual r s = (o, some t) ∧ Spans r.lo (min r.hi s.lo) o ∧
      t.lo = s.hi ∧ t.hi = r.hi := by
  unfold prangeDiffWithRightResidual
  rw [if_neg fun hdis => hover.not_ge (fDisjointLeft_iff.1 hdis)]
  have hright := prngDifferenceRight_spans (s := s) hr
  rw [max_eq_right hover.le] at hright
  cases hresidual : r.prngDifferenceRight s with
  | none =>
    rw [hresidual] at hright
    exact absurd hright (not_le.2 hends)
  | some t =>
    rw [hresidual] at hright
    refine ⟨_, t, rfl, ?_, hright.1, hright.2.1⟩
    split
    · exact prngDifferenceLeft_spans hr
    next hnot =>
      have hlt : s.lo < r.lo := lt_of_not_ge fun hge => hnot (contains_iff.2 ⟨hge, hends.le⟩)
      exact (min_le_right _ _).trans hlt.le

theorem difference_step {residual o residual' : Option (CRange α)}
    (hfst : Ordered (withResidual (r :: l) residual)) (hsm : Ordered (s :: m)) (hnew : Ordered new)
    (hbefore : Before new (withResidual (r :: l) residual))
    (hresidual : ∀ t ∈ residual, t.lo ≤ s.lo) (hends : s.hi < (residual.getD r).hi)
    (hdiff : prangeDiffWithRightResidual (residual.getD r) s = (o, residual')) :
    ∃ new', appendOrExtend new o = .ok new' ∧ Ordered (withResidual (r :: l) residual') ∧
      Ordered new' ∧ Before new' (withResidual (r :: l) residual') ∧
      (∀ t ∈ residual', ∀ u ∈ m, t.lo ≤ u.lo) ∧
      ∀ p, Downward p → (Has p new' ∨ (Has p (withResidual (r :: l) residual') ∧ ¬ Has p m) ↔
        Has p new ∨ (Has p (withResidual (r :: l) residual) ∧ ¬ Has p (s :: m))) := by
  obtain ⟨hsm', hs, -⟩ := ordered_cons.1 hsm
  rcases Classical.em (s.hi ≤ (residual.getD r).lo) with hdis | hover
  · -- the second range is before the first one, which is not a residual then
    obtain rfl : residual = none := by
      cases residual with
      | none => rfl
      | some t => exact absurd ((hresidual t rfl).trans_lt hs) (not_lt.2 hdis)
    unfold prangeDiffWithRightResidual at hdiff
    rw [if_pos (fDisjointLeft_iff.2 hdis)] at hdiff
    cases hdiff
    refine ⟨new, rfl, hfst, hnew, hbefore, nofun, fun p hp => ?_⟩
    have hnot : Has p (r :: l) → ¬ (p s.lo ∧ ¬ p s.hi) := fun hhas hin => by
      refine not_has_of_le hp (fun t ht => ?_) hin.2 hhas
      obtain ⟨hrl, hr, -⟩ := ordered_cons.1 hfst
      rcases mem_cons.1 ht with rfl | ht
      · exact hdis
      · exact hdis.trans ((le_of_lt hr).trans (hrl t ht))
    rw [withResidual, has_cons (r := s)]
    grind only
  · rw [withResidual_cons] at hfst hbefore
    generalize hthis : residual.getD r = this at *
    obtain ⟨hrl, hr, hl⟩ := ordered_cons.1 hfst
    obtain ⟨o', t, hdiff', ho, hlo, hhi⟩ := prangeDiffWithRightResidual_ok hr hends (not_le.1 hover)
    rw [hdiff] at hdiff'
    cases hdiff'
    obtain ⟨new', hok, hordered, hb, hfrom, hhas⟩ := appendLeft_ok hfst hnew hbefore ho
    have ht : Ordered (t :: l) := by
      refine ordered_cons.2 ⟨fun u hu => ?_, ?_, hl⟩
      · rw [hhi]
        exact hrl u hu
      · unfold NonEmpty
        rwa [hlo, hhi]
    refine ⟨new', hok, ht, hordered, fun v hv u hu => ?_, fun u hu w hw => ?_, fun p hp => ?_⟩
    · rcases mem_cons.1 hu with rfl | hu
      · rw [hlo]
        rcases hfrom v hv with hv | hv
        · exact (hbefore v hv this mem_cons_self).trans (not_le.1 hover).le
        · exact hv.trans (le_of_lt hs)
      · exact hb v hv u hu
    · cases hu
      rw [hlo]
      exact hsm' w hw
    · have hsthis : p this.hi → p s.hi := hp _ _ hends.le
      have hthiss : p s.hi → p this.lo := hp _ _ (not_le.1 hover).le
      have hsup : p s.hi → p s.lo := hp _ _ (le_of_lt hs)
      have hl' : Has p l → p this.hi := fun hhas => by
        by_contra hnot
        exact not_has_of_le hp hrl hnot hhas
      have hm' : Has p m → p s.hi := fun hhas => by
        by_contra hnot
        exact not_has_of_le hp hsm' hnot hhas
      rw [hhas p hp, withResidual_cons, withResidual_cons, hthis, has_cons, has_cons, has_cons,
        Option.getD_some, hlo, hhi]
      grind only

structure DifferenceLeaves (fst : List (CRange α)) (residual : Option (CRange α))
    (snd new : List (CRange α)) (differed : Differed α) : Prop where
  ordered : Ordered (withResidual differed.fst differed.residual)
  orderedNew : Ordered differed.new
  before : Before differed.new (withResidual differed.fst differed.residual)
  has : ∀ p, Downward p →
    (Has p differed.new ∨ Has p (withResidual differed.fst differed.residual) ↔
      Has p new ∨ (Has p (withResidual fst residual) ∧ ¬ Has p snd))

/-- **The loop of the difference.** A residual starts where the last range of the second list
ended, so none of those that follow is before it. -/
theorem differenceLoop_ok {residual : Option (CRange α)}
    (hfst : Ordered (withResidual fst residual)) (hsnd : Ordered snd) (hnew : Ordered new)
    (hbefore : Before new (withResidual fst residual))
    (hresidual : ∀ t ∈ residual, fst ≠ [] ∧ ∀ u ∈ snd, t.lo ≤ u.lo) :
    ∃ differed, differenceLoop fst residual snd new = .ok differed ∧
      DifferenceLeaves fst residual snd new differed := by
  fun_induction differenceLoop fst residual snd new with
  | case1 residual new r fst s snd this hends e herr =>
    rw [withResidual_cons] at hfst hbefore
    obtain ⟨new', hok, -⟩ := appendLeft_ok hfst hnew hbefore
      (prngDifferenceLeft_spans (ordered_cons.1 hfst).2.1)
    rw [herr] at hok
    cases hok
  | case2 residual new r fst s snd this hends new' hok ih =>
    rw [withResidual_cons] at hfst hbefore
    obtain ⟨new'', hok', hordered, hb, -, hhas⟩ := appendLeft_ok hfst hnew hbefore
      (prngDifferenceLeft_spans (ordered_cons.1 hfst).2.1)
    rw [hok] at hok'
    cases hok'
    obtain ⟨differed, hrun, h⟩ := ih (ordered_cons.1 hfst).2.2 hsnd hordered hb nofun
    refine ⟨differed, hrun, { h with has := fun p hp => ?_ }⟩
    rw [h.has p hp, withResidual_cons, has_cons, has_cons, withResidual]
    have hle : p s.hi → p this.hi := hp _ _ (fEndsWithOrAfter_iff.1 hends)
    have hnot : ¬ p s.lo → ¬ Has p (s :: snd) := fun hlo =>
      not_has_of_le hp (fun t ht => by
        obtain ⟨hsm, hs, -⟩ := ordered_cons.1 hsnd
        rcases mem_cons.1 ht with rfl | ht
        · exact le_rfl
        · exact (le_of_lt hs).trans (hsm t ht)) hlo
    rw [has_cons] at hnot
    grind only
  | case3 residual new r fst s snd this hends o residual' hdiff e herr =>
    obtain ⟨new', hok, -⟩ := difference_step hfst hsnd hnew hbefore
      (fun t ht => (hresidual t ht).2 s mem_cons_self)
      (lt_of_not_ge fun hge => hends (fEndsWithOrAfter_iff.2 hge)) hdiff
    rw [herr] at hok
    cases hok
  | case4 residual new r fst s snd this hends o residual' hdiff new' hok ih =>
    obtain ⟨new'', hok', hordered, hnew', hb, hresidual', hhas⟩ := difference_step hfst hsnd hnew
      hbefore (fun t ht => (hresidual t ht).2 s mem_cons_self)
      (lt_of_not_ge fun hge => hends (fEndsWithOrAfter_iff.2 hge)) hdiff
    rw [hok] at hok'
    cases hok'
    obtain ⟨differed, hrun, h⟩ := ih hordered (ordered_cons.1 hsnd).2.2 hnew' hb
      (fun t ht => ⟨cons_ne_nil _ _, hresidual' t ht⟩)
    exact ⟨differed, hrun, { h with has := fun p hp => (h.has p hp).trans (hhas p hp) }⟩
  | case5 fst residual snd new hend =>
    refine ⟨_, rfl, hfst, hnew, hbefore, fun p _ => ?_⟩
    cases snd with
    | nil => simp
    | cons s snd =>
      cases fst with
      | nil =>
        cases residual with
        | none => simp [withResidual]
        | some t => exact absurd rfl (hresidual t rfl).1
      | cons r fst => exact (hend r fst s snd rfl rfl).elim

end loops

end CConstraintInterval

end Cloudberry.Orca

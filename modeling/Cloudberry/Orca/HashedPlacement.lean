/-
# Placements that comply with a hashed distribution

A placement assigns a segment to each row. It complies with a specification if the segment is a
function of the hash values of the expressions, for the rows without NULLs or for all rows if the
NULLs are colocated; it complies with a chain if it does with each specification of it.

`Matches` and `FSatisfies` are sound about the expressions and families: if they accept, the hash
values of the delivered distribution are determined by the required expressions. They are not sound
about NULLs, because `Matches` changes the roles of both sides, so that it can accept a distribution
that does not colocate NULLs where this is required.
-/

import Cloudberry.Orca.DistributionSpecHashed

namespace Cloudberry.Orca

open List HashedSpec ScalarWorld

variable {ε κ φ μ : Type} {W : ScalarWorld ε κ φ μ}

/-- What expressions mean: values in a row of columns, hash functions of the operator families, and
the segment for a list of hash values, where NULL has none. -/
structure ScalarSemantics (W : ScalarWorld ε κ φ μ) (ν η σ : Type) where
  eval : ε → (κ → Option ν) → Option ν
  hash : Option μ → ν → η
  segment : List (Option η) → σ
  eval_equals : ∀ {e e'}, W.equals e e' = true → ∀ a, eval e a = eval e' a
  eval_withoutBinaryCoercibleCasts : ∀ e a, eval (W.withoutBinaryCoercibleCasts e) a = eval e a
  eval_remap : ∀ m e a, eval (W.remap m e) a = eval e fun c => a (m c)

/-- The default family of an expression's type. -/
def ScalarWorld.defaultFamily (W : ScalarWorld ε κ φ μ) (e : ε) : Option μ :=
  (W.distrOpfamilyMdid e).map W.mdid

/-- The families that are used: those given, or the default ones. -/
def HashedSpec.families (n : HashedSpec W) : List (Option μ) :=
  match n.opfamilies with
  | some mdids => mdids.map fun mdid => some (W.mdid mdid)
  | none => n.pdrgpexpr.map W.defaultFamily

variable {ν η σ ρ : Type} (S : ScalarSemantics W ν η σ) (val : ρ → κ → Option ν) (p : ρ → σ)

section

variable (n : HashedSpec W)

def HashedSpec.key (a : κ → Option ν) : List (Option η) :=
  zipWith (fun family e => (S.eval e a).map (S.hash family)) n.families n.pdrgpexpr

def HashedSpec.Complies : Prop :=
  ∀ x, n.fNullsColocated = true ∨ none ∉ n.key S (val x) → p x = S.segment (n.key S (val x))

/-- An equivalent expression has the same value and the same default hash value in every row. -/
def HashedSpec.EquivExprsHold : Prop :=
  ∀ (ul : ℕ) (e e' : ε), n.pdrgpexpr[ul]? = some e → e' ∈ n.equivHashExprs.getD ul [] → ∀ x,
    S.eval e' (val x) = S.eval e (val x) ∧
      ∀ v ∈ S.eval e (val x), S.hash (W.defaultFamily e') v = S.hash (W.defaultFamily e) v

/-- Two rows are equal on the expressions; NULLs are equal if they are colocated. -/
def HashedSpec.EqualOn (x y : ρ) : Prop :=
  ∀ e ∈ n.pdrgpexpr, S.eval e (val x) = S.eval e (val y) ∧
    (n.fNullsColocated = true ∨ S.eval e (val x) ≠ none)

end

namespace CDistributionSpecHashed

def Complies (d : CDistributionSpecHashed W) : Prop := ∀ n ∈ d.chain, n.Complies S val p

/-- The equivalent specifications have the same hash values in every row, and the equivalent
expressions hold. -/
def EquivsHold (d : CDistributionSpecHashed W) : Prop :=
  (∀ n ∈ d.chain, ∀ x, n.key S (val x) = d.spec.key S (val x)) ∧
    ∀ n ∈ d.chain, n.EquivExprsHold S val

/-- Rows that are equal on the required expressions are together. -/
def Collocates (r : CDistributionSpecHashed W) : Prop := ∀ x y, r.spec.EqualOn S val x y → p x = p y

/-- Some specification of the chain colocates NULLs. -/
def nullsColocated (d : CDistributionSpecHashed W) : Bool := d.chain.any fNullsColocated

/-- The equivalent specifications have equally many expressions. -/
def SameLengths (d : CDistributionSpecHashed W) : Prop :=
  ∀ n ∈ d.chain, n.pdrgpexpr.length = d.spec.pdrgpexpr.length

end CDistributionSpecHashed

/-! ### Hash values -/

section Key

variable {S val p}

theorem HashedSpec.length_families (n : HashedSpec W) : n.families.length = n.pdrgpexpr.length := by
  unfold families
  split
  next mdids hmdids => rw [length_map, n.length_opfamilies mdids hmdids]
  · rw [length_map]

theorem HashedSpec.length_key (n : HashedSpec W) (a : κ → Option ν) :
    (n.key S a).length = n.pdrgpexpr.length := by
  rw [key, length_zipWith, n.length_families, Nat.min_self]

theorem zipWith_congr_right {α β γ : Type} {f : α → β → γ} {g : α → β → γ} (l : List α) {m : List β}
    (h : ∀ b ∈ m, ∀ a, f a b = g a b) : zipWith f l m = zipWith g l m := by
  induction l generalizing m with
  | nil => rfl
  | cons a l ih =>
    cases m with
    | nil => rfl
    | cons b m =>
      rw [zipWith_cons_cons, zipWith_cons_cons, h b mem_cons_self a,
        ih fun b hb => h b (mem_cons_of_mem _ hb)]

theorem HashedSpec.key_congr (n : HashedSpec W) {a b : κ → Option ν}
    (h : ∀ e ∈ n.pdrgpexpr, S.eval e a = S.eval e b) : n.key S a = n.key S b :=
  zipWith_congr_right _ fun e he family => by rw [h e he]

theorem HashedSpec.none_notMem_key (n : HashedSpec W) {a : κ → Option ν}
    (h : ∀ e ∈ n.pdrgpexpr, S.eval e a ≠ none) : none ∉ n.key S a := by
  intro hmem
  obtain ⟨i, _, hnone⟩ := mem_iff_getElem.1 hmem
  simp only [key, getElem_zipWith, Option.map_eq_none_iff] at hnone
  exact h _ (getElem_mem _) hnone

end Key

/-! ### Matching -/

section Match

variable {S val p}

theorem ScalarWorld.exists_equals_of_contains {exprs : List ε} {e : ε}
    (h : W.contains exprs e = true) : ∃ e' ∈ exprs, W.equals e' e = true :=
  any_eq_true.1 h

variable {other : HashedSpec W}

theorem HashedSpec.exprMatches_sound (hequiv : other.EquivExprsHold S val) {ul : ℕ}
    {exprOther expr : ε} (hother : other.pdrgpexpr[ul]? = some exprOther)
    (h : other.exprMatches ul exprOther expr = true) (x : ρ) :
    S.eval expr (val x) = S.eval exprOther (val x) ∧ ∀ v ∈ S.eval exprOther (val x),
        S.hash (W.defaultFamily expr) v = S.hash (W.defaultFamily exprOther) v := by
  unfold exprMatches at h
  rw [Bool.or_eq_true] at h
  rcases h with h | h
  · refine ⟨(S.eval_equals h (val x)).symm, fun v _ => ?_⟩
    rw [defaultFamily, defaultFamily, W.distrOpfamilyMdid_equals h]
  obtain ⟨e', hmem, heq⟩ := W.exists_equals_of_contains h
  obtain ⟨hval, hhash⟩ := hequiv ul exprOther e' hother hmem x
  refine ⟨by rw [← S.eval_equals heq, hval], fun v hv => ?_⟩
  rw [defaultFamily, ← W.distrOpfamilyMdid_equals heq]
  exact hhash v hv

variable {n : HashedSpec W}

theorem HashedSpec.exists_of_matchesAt {ul : ℕ} (h : n.matchesAt other ul = true) :
    ∃ exprOther expr, other.pdrgpexpr[ul]? = some exprOther ∧
      n.pdrgpexpr[ul]? = some expr ∧ other.exprMatches ul exprOther expr = true := by
  unfold matchesAt at h
  split at h
  next exprOther expr hother hown => exact ⟨exprOther, expr, hother, hown, h⟩
  · cases h

variable [DecidableEq μ]

theorem HashedSpec.fMatchHashedDistribution_cases (h : n.fMatchHashedDistribution other = true) :
    n.pdrgpexpr.length = other.pdrgpexpr.length ∧ n.fNullsColocatedCompatible other = true ∧
      W.mdidsEqual n.opfamilies other.opfamilies = true ∧
      ∀ ul < n.pdrgpexpr.length, n.matchesAt other ul = true := by
  unfold fMatchHashedDistribution at h
  by_cases hhead : (n.pdrgpexpr.length ≠ other.pdrgpexpr.length ||
      !n.fNullsColocatedCompatible other ||
      n.isDuplicateSensitive ≠ other.isDuplicateSensitive) = true
  · rw [if_pos hhead] at h
    cases h
  rw [if_neg hhead] at h
  simp only [ne_eq, decide_not, Bool.or_eq_true, Bool.not_eq_true', decide_eq_false_iff_not,
    not_or, not_not, Bool.not_eq_false] at hhead
  by_cases hmdids : W.mdidsEqual n.opfamilies other.opfamilies = true
  · rw [if_neg (by simp [hmdids]), all_eq_true] at h
    exact ⟨hhead.1.1, hhead.1.2, hmdids, fun ul hul => h ul (mem_range.2 hul)⟩
  · rw [if_pos (by simpa using hmdids)] at h
    cases h

theorem HashedSpec.families_of_mdidsEqual (h : W.mdidsEqual n.opfamilies other.opfamilies = true) :
    n.families = other.families ∨ n.families = n.pdrgpexpr.map W.defaultFamily ∧
        other.families = other.pdrgpexpr.map W.defaultFamily := by
  unfold families
  cases hown : n.opfamilies with
  | none =>
    cases hother : other.opfamilies with
    | none => exact .inr ⟨rfl, rfl⟩
    | some otherMdids =>
      rw [hown, hother] at h
      cases h
  | some mdids =>
    cases hother : other.opfamilies with
    | none =>
      rw [hown, hother] at h
      cases h
    | some otherMdids =>
      rw [hown, hother] at h
      have hmap : mdids.map W.mdid = otherMdids.map W.mdid := of_decide_eq_true h
      have hsome := congrArg (map some) hmap
      rw [map_map, map_map] at hsome
      exact .inl hsome

/-- **Distributions that match have the same hash values in every row.** -/
theorem HashedSpec.key_eq_of_fMatchHashedDistribution (hequiv : other.EquivExprsHold S val)
    (h : n.fMatchHashedDistribution other = true) (x : ρ) :
    n.key S (val x) = other.key S (val x) := by
  obtain ⟨hlen, -, hmdids, hmatch⟩ := fMatchHashedDistribution_cases h
  refine ext_getElem (by rw [n.length_key, other.length_key, hlen]) fun ul hul _ => ?_
  rw [n.length_key] at hul
  obtain ⟨_, _, hother, hown, hexpr⟩ := exists_of_matchesAt (hmatch ul hul)
  obtain ⟨hval, hhash⟩ := exprMatches_sound hequiv hother hexpr x
  obtain ⟨_, rfl⟩ := List.getElem?_eq_some_iff.1 hother
  obtain ⟨_, rfl⟩ := List.getElem?_eq_some_iff.1 hown
  simp only [key, getElem_zipWith]
  rw [hval]
  refine Option.map_congr fun v hv => ?_
  rcases families_of_mdidsEqual hmdids with hfamilies | ⟨hfamilies, hfamilies'⟩
  · simp [hfamilies]
  · simp only [hfamilies, hfamilies', getElem_map]
    exact hhash v hv

namespace CDistributionSpecHashed

/-- `Matches` finds specifications of both chains with the same hash values, whichever roles they
have. -/
theorem exists_key_eq_of_matchesHashed (d r : CDistributionSpecHashed W)
    (hd : ∀ n ∈ d.chain, n.EquivExprsHold S val) (hr : ∀ n ∈ r.chain, n.EquivExprsHold S val)
    (h : d.matchesHashed r = true) :
    ∃ n ∈ d.chain, ∃ n' ∈ r.chain, ∀ x, n.key S (val x) = n'.key S (val x) := by
  induction hsize : d.equivs.length + r.equivs.length using Nat.strongRecOn generalizing d r with
  | ind size ih =>
    rw [CDistributionSpecHashed.matchesHashed, Bool.or_eq_true, Bool.or_eq_true] at h
    rcases h with (h | h) | h
    · -- the chain of the delivered side
      split at h
      · cases h
      next m ms hms =>
        have hsub : ∀ n ∈ chain ⟨m, ms⟩, n ∈ d.chain := by
          intro n hn
          rw [chain, hms]
          exact mem_cons_of_mem _ hn
        obtain ⟨n, hn, n', hn', hkey⟩ := ih _ (by rw [← hsize, hms]; simp) ⟨m, ms⟩ r
          (fun n hn => hd n (hsub n hn)) hr h rfl
        exact ⟨n, hsub n hn, n', hn', hkey⟩
    · -- the chain of the required side, with exchanged roles
      split at h
      · cases h
      next m ms hms =>
        have hsub : ∀ n ∈ chain ⟨m, ms⟩, n ∈ r.chain := by
          intro n hn
          rw [chain, hms]
          exact mem_cons_of_mem _ hn
        obtain ⟨n, hn, n', hn', hkey⟩ := ih _ (by rw [← hsize, hms]; simp; omega) ⟨m, ms⟩ d
          (fun n hn => hr n (hsub n hn)) hd h rfl
        exact ⟨n', hn', n, hsub n hn, fun x => (hkey x).symm⟩
    · exact ⟨d.spec, mem_cons_self, r.spec, mem_cons_self, fun x =>
        key_eq_of_fMatchHashedDistribution (hr r.spec mem_cons_self) h x⟩

end CDistributionSpecHashed

/-! ### Subsets -/

variable [DecidableEq φ]

theorem HashedSpec.foundAt_cases {ulInner : ℕ} {exprOwn exprOther : ε} {opfamilies : Option (φ × φ)}
    (h : other.foundAt ulInner exprOwn exprOther opfamilies = true) :
    W.equals exprOwn exprOther = true ∨
      W.contains (other.equivHashExprs.getD ulInner []) exprOwn = true := by
  unfold foundAt at h
  split at h
  · exact Bool.or_eq_true_iff.1 h
  split at h
  next hfound => exact .inl (Bool.and_eq_true_iff.1 hfound).1
  · split_ifs at h
    exact .inr h

variable (hequiv : other.EquivExprsHold S val)
include hequiv

theorem HashedSpec.foundAt_sound {ul : ℕ} {exprOther exprOwn : ε} {opfamilies : Option (φ × φ)}
    (hother : other.pdrgpexpr[ul]? = some exprOther)
    (h : other.foundAt ul (W.withoutBinaryCoercibleCasts exprOwn)
      (W.withoutBinaryCoercibleCasts exprOther) opfamilies = true) (x : ρ) :
    S.eval exprOwn (val x) = S.eval exprOther (val x) := by
  rw [← S.eval_withoutBinaryCoercibleCasts exprOwn]
  rcases foundAt_cases h with h | h
  · rw [S.eval_equals h, S.eval_withoutBinaryCoercibleCasts]
  · obtain ⟨e', hmem, heq⟩ := W.exists_equals_of_contains h
    rw [← S.eval_equals heq, (hequiv ul exprOther e' hother hmem x).1]

theorem HashedSpec.findIn_sound {ulOuter : ℕ} {exprOwn : ε} {uls : List ℕ}
    (h : n.findIn other ulOuter exprOwn uls = some true) :
    ∃ e ∈ other.pdrgpexpr, ∀ x, S.eval exprOwn (val x) = S.eval e (val x) := by
  induction uls with
  | nil => cases h
  | cons ulInner rest ih =>
    rw [findIn] at h
    split at h
    next exprOther opfamilies hother _ =>
      split at h
      next hfound => exact ⟨exprOther, mem_of_getElem? hother, foundAt_sound hequiv hother hfound⟩
      · exact ih h
    · cases h

theorem HashedSpec.findAll_sound {uls : List ℕ} (h : n.findAll other uls = some true) :
    ∀ ul ∈ uls, ∃ exprOwn, n.pdrgpexpr[ul]? = some exprOwn ∧
      ∃ e ∈ other.pdrgpexpr, ∀ x, S.eval exprOwn (val x) = S.eval e (val x) := by
  induction uls with
  | nil => exact fun ul hul => absurd hul not_mem_nil
  | cons ulOuter rest ih =>
    rw [findAll] at h
    split at h
    · cases h
    next exprOwn hown =>
      split at h
      · cases h
      · cases h
      next hfound =>
        intro ul hul
        rcases mem_cons.1 hul with rfl | hul
        · exact ⟨exprOwn, hown, findIn_sound hequiv hfound⟩
        · exact ih h ul hul

theorem HashedSpec.fMatchSubset_sound (h : n.fMatchSubset other = some true) :
    ∀ exprOwn ∈ n.pdrgpexpr,
      ∃ e ∈ other.pdrgpexpr, ∀ x, S.eval exprOwn (val x) = S.eval e (val x) := by
  intro exprOwn hmem
  unfold fMatchSubset at h
  split at h
  · cases h
  obtain ⟨ul, hul, rfl⟩ := mem_iff_getElem.1 hmem
  obtain ⟨e, he, hfound⟩ := findAll_sound hequiv h ul (mem_range.2 hul)
  rw [getElem?_eq_getElem hul] at he
  cases he
  exact hfound

end Match

/-! ### Satisfaction -/

namespace CDistributionSpecHashed

variable {S val p}

theorem exists_nullsColocated {d : CDistributionSpecHashed W} (h : d.nullsColocated = true) :
    ∃ n ∈ d.chain, n.fNullsColocated = true :=
  any_eq_true.1 h

/-- A chain whose equivalences hold says where all rows are if one of its specifications colocates
NULLs, and otherwise where the rows without NULLs are. -/
theorem complies_iff {d : CDistributionSpecHashed W} (hd : d.EquivsHold S val) :
    d.Complies S val p ↔ ∀ x, d.nullsColocated = true ∨ none ∉ d.spec.key S (val x) →
      p x = S.segment (d.spec.key S (val x)) := by
  constructor
  · intro h x hx
    rcases hx with hnulls | hkey
    · obtain ⟨n, hn, hnull⟩ := exists_nullsColocated hnulls
      have hp := h n hn x (.inl hnull)
      rwa [hd.1 n hn x] at hp
    · exact h d.spec mem_cons_self x (.inr hkey)
  · intro h n hn x hx
    rw [hd.1 n hn x] at hx ⊢
    refine h x ?_
    rcases hx with hnull | hkey
    · exact .inl (any_eq_true.2 ⟨n, hn, hnull⟩)
    · exact .inr hkey

variable [DecidableEq μ]

theorem key_eq_of_matchesHashed {d r : CDistributionSpecHashed W} (hd : d.EquivsHold S val)
    (hr : r.EquivsHold S val) (h : d.matchesHashed r = true) (x : ρ) :
    d.spec.key S (val x) = r.spec.key S (val x) := by
  obtain ⟨n, hn, n', hn', hkey⟩ := exists_key_eq_of_matchesHashed d r hd.2 hr.2 h
  rw [← hd.1 n hn x, hkey x, hr.1 n' hn' x]

variable [DecidableEq φ]

/-- `FSatisfies` accepts because a chain within the own one matches, or because a specification of
the own chain is on a subset of the expressions. -/
theorem satisfiesFrom_cases {r : CDistributionSpecHashed W} {n : HashedSpec W}
    {ns : List (HashedSpec W)} (h : satisfiesFrom (.hashed r) n ns = some true) :
    ∃ d : CDistributionSpecHashed W, (∀ m ∈ d.chain, m ∈ n :: ns) ∧
      (d.matchesHashed r = true ∨ d.spec.fMatchSubset r.spec = some true) := by
  induction ns generalizing n with
  | nil =>
    rw [satisfiesFrom] at h
    refine ⟨⟨n, []⟩, fun m hm => hm, ?_⟩
    by_cases hmatch : matchesSpec ⟨n, []⟩ (.hashed r) = true
    · exact .inl hmatch
    · rw [if_neg hmatch] at h
      exact .inr h
  | cons n' ns ih =>
    rw [satisfiesFrom] at h
    split at h
    · cases h
    next hsat =>
      obtain ⟨d, hsub, hd⟩ := ih hsat
      exact ⟨d, fun m hm => mem_cons_of_mem _ (hsub m hm), hd⟩
    · refine ⟨⟨n, n' :: ns⟩, fun m hm => hm, ?_⟩
      by_cases hmatch : matchesSpec ⟨n, n' :: ns⟩ (.hashed r) = true
      · exact .inl hmatch
      · rw [if_neg hmatch] at h
        exact .inr h

/-- **Rows that are equal on the expressions of a satisfied request have the same hash values, and
these are not NULL unless the request counts NULLs as equal.** -/
theorem key_of_fSatisfies {d r : CDistributionSpecHashed W} (hd : d.EquivsHold S val)
    (hr : r.EquivsHold S val) (h : d.fSatisfies (.hashed r) = some true) {x y : ρ}
    (hxy : r.spec.EqualOn S val x y) : d.spec.key S (val x) = d.spec.key S (val y) ∧
      (r.spec.fNullsColocated = true ∨ none ∉ d.spec.key S (val x)) := by
  obtain ⟨d', hsub, hcase⟩ := satisfiesFrom_cases h
  rcases hcase with hmatch | hsubset
  · obtain ⟨n, hn, n', hn', hkey⟩ := exists_key_eq_of_matchesHashed d' r
      (fun n hn => hd.2 n (hsub n hn)) hr.2 hmatch
    have heq : ∀ z, d.spec.key S (val z) = r.spec.key S (val z) := by
      intro z
      rw [← hd.1 n (hsub n hn) z, hkey z, hr.1 n' hn' z]
    rw [heq x, heq y]
    refine ⟨r.spec.key_congr fun e he => (hxy e he).1, ?_⟩
    by_cases hnulls : r.spec.fNullsColocated = true
    · exact .inl hnulls
    · exact .inr (r.spec.none_notMem_key fun e he => (hxy e he).2.resolve_left hnulls)
  · have hmem : d'.spec ∈ d.chain := hsub _ mem_cons_self
    have hfound := fMatchSubset_sound (hr.2 r.spec mem_cons_self) hsubset
    rw [← hd.1 _ hmem x, ← hd.1 _ hmem y]
    constructor
    · refine d'.spec.key_congr fun e he => ?_
      obtain ⟨e', he', heval⟩ := hfound e he
      rw [heval x, heval y, (hxy e' he').1]
    by_cases hnulls : r.spec.fNullsColocated = true
    · exact .inl hnulls
    refine .inr (d'.spec.none_notMem_key fun e he => ?_)
    obtain ⟨e', he', heval⟩ := hfound e he
    rw [heval x]
    exact (hxy e' he').2.resolve_left hnulls

end CDistributionSpecHashed

end Cloudberry.Orca

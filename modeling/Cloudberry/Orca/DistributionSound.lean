/-
# When a hashed distribution gives what is required

The condition under which `FSatisfies` and `Matches` accept a distribution rightly, and under which
copies of a specification mean what the specification does. What is missing is shown with two
meanings of expressions: one in which everything is NULL, so that a distribution that does not
colocate NULLs says nothing about the rows, and one in which the hash value is the operator family.
-/

import Cloudberry.Orca.HashedPlacement
import Mathlib.Data.Option.Basic

namespace Cloudberry.Orca

open List ScalarWorld HashedSpec

variable {ε κ φ μ : Type} {W : ScalarWorld ε κ φ μ} {equivClass : κ → Option (List κ)}

namespace HashedSpec

variable {ν η σ ρ : Type} {S : ScalarSemantics W ν η σ} {val : ρ → κ → Option ν} {p : ρ → σ}

/-! ### Copies -/

variable {n : HashedSpec W}

theorem families_of_ctor_none (h : n.opfamilies = W.ctorOpfamilies n.pdrgpexpr none) :
    n.families = n.pdrgpexpr.map W.defaultFamily := by
  unfold families
  rw [h]
  unfold ctorOpfamilies defaultOpfamilies
  by_cases hconsider : W.considerOpfamilies = true
  · rw [if_pos (by simp [hconsider])]
    by_cases hall : (n.pdrgpexpr.all fun expr => (W.distrOpfamilyMdid expr).isSome) = true
    · rw [if_pos hall]
      dsimp only
      generalize n.pdrgpexpr = exprs at hall ⊢
      induction exprs with
      | nil => rfl
      | cons expr exprs ih =>
        rw [all_cons, Bool.and_eq_true] at hall
        obtain ⟨_, hmdid⟩ := Option.isSome_iff_exists.1 hall.1
        rw [filterMap_cons_some hmdid, map_cons, map_cons, ih hall.2,
          defaultFamily, hmdid, Option.map_some]
    · rw [if_neg hall]
  · rw [if_neg (by simp [hconsider])]

theorem key_copy (n : HashedSpec W) (fNullsColocated : Bool) (a : κ → Option ν) :
    (n.copy fNullsColocated).key S a = n.key S a := by
  have hfamilies : (n.copy fNullsColocated).families = n.families := by
    unfold families copy make
    dsimp only
    rw [n.opfamilies_populated]
  rw [key, hfamilies]
  rfl

theorem complies_copy (n : HashedSpec W) :
    (n.copy n.fNullsColocated).Complies S val p ↔ n.Complies S val p := by
  simp only [Complies, key_copy]
  rfl

theorem defaultOpfamilies_remap (m : κ → κ) (exprs : List ε) :
    W.defaultOpfamilies (exprs.map (W.remap m)) = W.defaultOpfamilies exprs := by
  simp [defaultOpfamilies, Function.comp_def, W.distrOpfamilyMdid_remap]

theorem defaultFamily_remap (m : κ → κ) (e : ε) :
    W.defaultFamily (W.remap m e) = W.defaultFamily e := by
  rw [defaultFamily, W.distrOpfamilyMdid_remap, defaultFamily]

theorem families_remap (n : HashedSpec W) (m : κ → κ) :
    (n.remap m n.opfamilies n.length_opfamilies).families = n.families := by
  have hctor : W.ctorOpfamilies (n.pdrgpexpr.map (W.remap m)) n.opfamilies = n.opfamilies := by
    unfold ctorOpfamilies
    rw [defaultOpfamilies_remap]
    exact n.opfamilies_populated
  unfold families remap make
  dsimp only
  rw [hctor]
  cases n.opfamilies with
  | some mdids => rfl
  | none => simp only [map_map, Function.comp_def, defaultFamily_remap]

theorem families_remap_none (n : HashedSpec W) (m : κ → κ)
    (hlen : ∀ mdids ∈ (none : Option (List φ)), mdids.length = n.pdrgpexpr.length) :
    (n.remap m none hlen).families = n.pdrgpexpr.map W.defaultFamily := by
  rw [families_of_ctor_none (n := n.remap m none hlen) rfl]
  unfold remap make
  simp [Function.comp_def, defaultFamily_remap]

theorem key_remap (n : HashedSpec W) (m : κ → κ) (opfamilies : Option (List φ))
    (hlen : ∀ mdids ∈ opfamilies, mdids.length = n.pdrgpexpr.length)
    (hfamilies : (n.remap m opfamilies hlen).families = n.families) (a : κ → Option ν) :
    (n.remap m opfamilies hlen).key S a = n.key S fun c => a (m c) := by
  rw [key, hfamilies]
  unfold remap make
  rw [zipWith_map_right]
  exact zipWith_congr_right _ fun e _ family => by rw [S.eval_remap]

theorem complies_remap {m : κ → κ} {opfamilies : Option (List φ)}
    {hlen : ∀ mdids ∈ opfamilies, mdids.length = n.pdrgpexpr.length}
    (hfamilies : (n.remap m opfamilies hlen).families = n.families) :
    (n.remap m opfamilies hlen).Complies S val p ↔ n.Complies S (fun x c => val x (m c)) p := by
  simp only [Complies, key_remap n m opfamilies hlen hfamilies]
  rfl

/-- Both sides of the equality predicates between the columns of a class have the same value and the
same default hash value in every row. -/
def ClassesHold (S : ScalarSemantics W ν η σ) (val : ρ → κ → Option ν)
    (equivClass : κ → Option (List κ)) : Prop :=
  ∀ c, ∀ cols ∈ equivClass c, ∀ c' ∈ cols, ∀ x,
    let left := W.withoutBinaryCoercibleCasts (W.scalarEqCmp c c').1
    let right := W.withoutBinaryCoercibleCasts (W.scalarEqCmp c c').2
    S.eval left (val x) = S.eval right (val x) ∧
      ∀ v ∈ S.eval left (val x), S.hash (W.defaultFamily left) v = S.hash (W.defaultFamily right) v

variable [DecidableEq κ]

theorem equivExprs_sound (hclass : ClassesHold S val equivClass) {e e' : ε}
    (h : e' ∈ equivExprs (W := W) equivClass e) (x : ρ) : S.eval e' (val x) = S.eval e (val x) ∧
      ∀ v ∈ S.eval e (val x), S.hash (W.defaultFamily e') v = S.hash (W.defaultFamily e) v := by
  rcases mem_cons.1 h with rfl | h
  · exact ⟨rfl, fun _ _ => rfl⟩
  split at h
  · cases h
  next colref _ =>
    obtain ⟨equivCol, hmem, hsome⟩ := mem_filterMap.1 h
    obtain ⟨cols, hcols, hcol⟩ : ∃ cols, equivClass colref = some cols ∧ equivCol ∈ cols := by
      cases hcols : equivClass colref with
      | none =>
        rw [hcols] at hmem
        cases hmem
      | some cols =>
        rw [hcols] at hmem
        exact ⟨cols, rfl, hmem⟩
    obtain ⟨hval, hhash⟩ := hclass colref cols hcols equivCol hcol x
    dsimp only at hsome
    split at hsome
    · cases hsome
    split at hsome
    next hleft =>
      cases hsome
      rw [← S.eval_equals hleft, defaultFamily, defaultFamily, ← W.distrOpfamilyMdid_equals hleft]
      exact ⟨hval.symm, fun v hv => (hhash v hv).symm⟩
    · split_ifs at hsome with hright
      cases hsome
      rw [← S.eval_equals hright, defaultFamily, defaultFamily, ← W.distrOpfamilyMdid_equals hright]
      exact ⟨hval, fun v hv => hhash v (hval ▸ hv)⟩

theorem equivExprsHold_computeEquivHashExprs (hclass : ClassesHold S val equivClass)
    (hn : n.EquivExprsHold S val) : (n.computeEquivHashExprs equivClass).EquivExprsHold S val := by
  unfold computeEquivHashExprs
  split_ifs with hempty
  · intro ul e e' he he' x
    refine equivExprs_sound hclass ?_ x
    simpa [getD_eq_getElem?_getD, he] using he'
  · exact hn

theorem key_computeEquivHashExprs (equivClass : κ → Option (List κ)) (n : HashedSpec W)
    (a : κ → Option ν) : (n.computeEquivHashExprs equivClass).key S a = n.key S a := by
  unfold computeEquivHashExprs
  split <;> rfl

end HashedSpec

/-! ### Two meanings of expressions -/

def nullSemantics (W : ScalarWorld ε κ φ μ) : ScalarSemantics W Unit Unit Bool where
  eval _ _ := none
  hash _ _ := ()
  segment _ := true
  eval_equals _ _ := rfl
  eval_withoutBinaryCoercibleCasts _ _ := rfl
  eval_remap _ _ _ := rfl

/-- Every value is hashed to the family that is used. -/
def familySemantics (W : ScalarWorld ε κ φ μ) :
    ScalarSemantics W Unit (Option μ) (List (Option (Option μ))) where
  eval _ _ := some ()
  hash family _ := family
  segment key := key
  eval_equals _ _ := rfl
  eval_withoutBinaryCoercibleCasts _ _ := rfl
  eval_remap _ _ _ := rfl

variable {d : CDistributionSpecHashed W}

section Meanings

/-- Two rows, of which one is not where NULLs would be colocated. -/
def nullRows : Bool → κ → Option Unit := fun _ _ => none

theorem HashedSpec.key_nullSemantics (n : HashedSpec W) (a : κ → Option Unit) :
    n.key (nullSemantics W) a = replicate n.pdrgpexpr.length none := by
  refine ext_getElem (by rw [n.length_key, length_replicate]) fun i _ _ => ?_
  simp only [key, getElem_zipWith, getElem_replicate]
  rfl

theorem HashedSpec.none_mem_key_nullSemantics (n : HashedSpec W) (a : κ → Option Unit) :
    none ∈ n.key (nullSemantics W) a := by
  rw [n.key_nullSemantics, mem_replicate]
  exact ⟨fun h => n.pdrgpexpr_ne_nil (length_eq_zero_iff.1 h), rfl⟩

theorem CDistributionSpecHashed.equivsHold_nullSemantics (h : d.SameLengths) :
    d.EquivsHold (nullSemantics W) nullRows := by
  refine ⟨fun n hn x => ?_, fun n _ ul e e' _ _ x => ⟨rfl, fun v _ => rfl⟩⟩
  rw [n.key_nullSemantics, d.spec.key_nullSemantics, h n hn]

theorem CDistributionSpecHashed.complies_nullSemantics (h : d.nullsColocated = false)
    (p : Bool → Bool) : d.Complies (nullSemantics W) nullRows p := by
  intro n hn x hx
  rcases hx with hnull | hkey
  · have hany : d.nullsColocated = true := any_eq_true.2 ⟨n, hn, hnull⟩
    rw [h] at hany
    cases hany
  · exact absurd (n.none_mem_key_nullSemantics _) hkey

theorem HashedSpec.key_familySemantics (n : HashedSpec W) (a : κ → Option Unit) :
    n.key (familySemantics W) a = n.families.map some := by
  refine ext_getElem (by rw [n.length_key, length_map, n.length_families]) fun i _ _ => ?_
  simp only [key, getElem_zipWith, getElem_map]
  rfl

theorem HashedSpec.families_eq_of_complies {n n' : HashedSpec W} {m : κ → κ}
    (h : ∀ {ν η σ ρ : Type} (S : ScalarSemantics W ν η σ) (val : ρ → κ → Option ν) (p : ρ → σ),
      n'.Complies S val p ↔ n.Complies S (fun x c => val x (m c)) p) :
    n'.families = n.families := by
  have hown : n.Complies (familySemantics W) (fun (_ : Unit) (_ : κ) => none)
      fun _ => n.families.map some := by
    intro x _
    exact (n.key_familySemantics _).symm
  have hother := (h (familySemantics W) (fun (_ : Unit) (_ : κ) => none)
    fun _ => n.families.map some).2 hown
  have hkey := hother () (.inr ?_)
  · rw [n'.key_familySemantics] at hkey
    exact (map_injective_iff.2 (Option.some_injective _) hkey).symm
  · rw [n'.key_familySemantics]
    simp

end Meanings

/-! ### Acceptance and copies -/

namespace CDistributionSpecHashed

/-- Every placement that complies with `d` collocates the rows that are equal on `r`. -/
def SatisfactionSound (d r : CDistributionSpecHashed W) : Prop :=
  ∀ {ν η σ ρ : Type} (S : ScalarSemantics W ν η σ) (val : ρ → κ → Option ν) (p : ρ → σ),
    d.EquivsHold S val → r.EquivsHold S val → d.Complies S val p → r.Collocates S val p

/-- Every placement that complies with `d` complies with `r`. -/
def MatchSound (d r : CDistributionSpecHashed W) : Prop :=
  ∀ {ν η σ ρ : Type} (S : ScalarSemantics W ν η σ) (val : ρ → κ → Option ν) (p : ρ → σ),
    d.EquivsHold S val → r.EquivsHold S val → d.Complies S val p → r.Complies S val p

/-- The specification without equivalent ones means the same as the chain. -/
def StripSound (d : CDistributionSpecHashed W) : Prop :=
  ∀ {ν η σ ρ : Type} (S : ScalarSemantics W ν η σ) (val : ρ → κ → Option ν) (p : ρ → σ),
    d.EquivsHold S val → (d.stripEquivColumns.Complies S val p ↔ d.Complies S val p)

/-- The specifications of the chain `d'` mean what those of `d` do, with other columns. -/
def SameMeaning (m : κ → κ) (d d' : CDistributionSpecHashed W) : Prop :=
  Forall₂ (fun n n' => ∀ {ν η σ ρ : Type} (S : ScalarSemantics W ν η σ)
    (val : ρ → κ → Option ν) (p : ρ → σ),
      HashedSpec.Complies S val p n' ↔ HashedSpec.Complies S (fun x c => val x (m c)) p n)
    d.chain d'.chain

variable {ν η σ ρ : Type} {S : ScalarSemantics W ν η σ} {val : ρ → κ → Option ν} {p : ρ → σ}

theorem sameLengths_of_equivsHold (h : d.EquivsHold S val) (x : ρ) : d.SameLengths := by
  intro n hn
  have hlen := congrArg length (h.1 n hn x)
  rwa [n.length_key, d.spec.length_key] at hlen

theorem complies_stripEquivColumns (d : CDistributionSpecHashed W) :
    d.stripEquivColumns.Complies S val p ↔ d.spec.Complies S val p := by
  simp only [Complies, stripEquivColumns, chain, forall_mem_singleton]
  exact d.spec.complies_copy

/-- Stripping loses the colocation of NULLs if only an equivalent specification has it. -/
theorem stripSound_iff (d : CDistributionSpecHashed W) : StripSound d ↔
    (d.SameLengths → d.spec.fNullsColocated = true ∨ d.nullsColocated = false) := by
  constructor
  · intro hsound hd
    by_contra hnulls
    simp only [not_or, Bool.not_eq_true, Bool.not_eq_false] at hnulls
    have hstrip : d.stripEquivColumns.Complies (nullSemantics W) nullRows id :=
      complies_nullSemantics (by
        simp only [nullsColocated, stripEquivColumns, chain, any_cons, any_nil, Bool.or_false]
        exact hnulls.1) id
    have hp := (hsound (nullSemantics W) nullRows id (equivsHold_nullSemantics hd)).1 hstrip
    obtain ⟨n, hn, hnull⟩ := exists_nullsColocated hnulls.2
    have heq := hp n hn false (.inl hnull)
    cases heq
  · intro hnulls ν η σ ρ S val p hd
    rw [complies_stripEquivColumns]
    constructor
    · intro hspec
      rw [complies_iff hd]
      intro x hx
      refine hspec x ?_
      rcases hx with hx | hx
      · exact .inl ((hnulls (sameLengths_of_equivsHold hd x)).resolve_right
          (by simp [hx]))
      · exact .inr hx
    · exact fun h => h d.spec mem_cons_self

theorem complies_copy (d : CDistributionSpecHashed W) :
    d.copy.Complies S val p ↔ d.Complies S val p := by
  have hchain : d.copy.chain = d.chain.map fun n => n.copy n.fNullsColocated := rfl
  simp [Complies, hchain, HashedSpec.complies_copy]

/-- A copy that colocates NULLs, which is what is enforced for a request, gives what is requested. -/
theorem complies_of_copyNullsColocated (h : (d.copyNullsColocated true).Complies S val p) :
    d.Complies S val p := by
  have hchain : (d.copyNullsColocated true).chain = d.chain.map fun n => n.copy true := rfl
  intro n hn x _
  have hp := h (n.copy true) (by rw [hchain]; exact mem_map_of_mem hn) x (.inl rfl)
  rwa [n.key_copy] at hp

/-- Exactly the placements that comply with both specifications comply with the combined one. -/
theorem complies_combine (d other : CDistributionSpecHashed W) :
    (d.combine other).Complies S val p ↔ d.Complies S val p ∧ other.Complies S val p := by
  have hchain : (d.combine other).chain = d.combinedChain other := by
    exact cons_head_tail _
  have hmem : ∀ n, n ∈ d.combinedChain other ↔ n ∈ other.copy.chain ∨ n ∈ d.copy.chain := by
    simp [combinedChain, relink_eq]
  rw [← complies_copy d, ← complies_copy other]
  simp only [Complies, hchain, hmem]
  constructor
  · exact fun h => ⟨fun n hn => h n (.inr hn), fun n hn => h n (.inl hn)⟩
  · rintro ⟨hd, hother⟩ n (hn | hn)
    · exact hother n hn
    · exact hd n hn

def lastSpec (d : CDistributionSpecHashed W) : HashedSpec W := d.chain.getLast (cons_ne_nil _ _)

/-- A copy with other columns means the same exactly if the last specification of the chain has
default families. -/
theorem sameMeaning_remap_iff (d : CDistributionSpecHashed W) (m : κ → κ) :
    SameMeaning m d (d.pdsCopyWithRemappedColumns m) ↔
      d.lastSpec.families = d.lastSpec.pdrgpexpr.map W.defaultFamily := by
  obtain ⟨n, ns⟩ := d
  induction ns generalizing n with
  | nil =>
    simp only [SameMeaning, chain, pdsCopyWithRemappedColumns, remapFrom, lastSpec,
      getLast_singleton, forall₂_cons, Forall₂.nil, and_true]
    constructor
    · intro h
      rw [← HashedSpec.families_eq_of_complies h, n.families_remap_none]
    · intro h ν η σ ρ S val p
      exact HashedSpec.complies_remap (by rw [n.families_remap_none, h])
  | cons n' ns ih =>
    have htail := ih n'
    simp only [SameMeaning, chain, pdsCopyWithRemappedColumns, remapFrom, lastSpec,
      getLast_cons_cons, forall₂_cons] at htail ⊢
    rw [htail]
    refine and_iff_right fun {ν η σ ρ} S val p => ?_
    exact HashedSpec.complies_remap (n.families_remap m)

/-- The equivalences still hold when equivalent expressions are computed from classes that hold. -/
theorem equivsHold_computeEquivHashExprs [DecidableEq κ] (hclass : ClassesHold S val equivClass)
    (h : d.EquivsHold S val) : (d.computeEquivHashExprs equivClass).EquivsHold S val := by
  have hchain : (d.computeEquivHashExprs equivClass).chain =
      d.chain.map (HashedSpec.computeEquivHashExprs equivClass) := rfl
  constructor
  · intro n hn x
    rw [hchain] at hn
    obtain ⟨m, hm, rfl⟩ := mem_map.1 hn
    rw [m.key_computeEquivHashExprs, h.1 m hm x]
    exact (d.spec.key_computeEquivHashExprs equivClass _).symm
  · intro n hn
    rw [hchain] at hn
    obtain ⟨m, hm, rfl⟩ := mem_map.1 hn
    exact equivExprsHold_computeEquivHashExprs hclass (h.2 m hm)

/-- Rows of two inputs that comply with one request are on one segment if they have the same hash
values. -/
theorem segment_eq_of_complies {r : CDistributionSpecHashed W} {ρ' : Type}
    {val' : ρ' → κ → Option ν} {p' : ρ' → σ} (hr : r.EquivsHold S val) (hr' : r.EquivsHold S val')
    (h : r.Complies S val p) (h' : r.Complies S val' p') {x : ρ} {y : ρ'}
    (hkey : r.spec.key S (val x) = r.spec.key S (val' y))
    (hnulls : r.nullsColocated = true ∨ none ∉ r.spec.key S (val x)) : p x = p' y := by
  rw [(complies_iff hr).1 h x hnulls, (complies_iff hr').1 h' y (hkey ▸ hnulls), hkey]

variable [DecidableEq μ]

/-- **A distribution that matches gives a placement that complies with the request exactly if it
colocates NULLs or this is not required.** -/
theorem matchSound_iff {d r : CDistributionSpecHashed W} (h : d.matchesHashed r = true) :
    MatchSound d r ↔
      (d.SameLengths → r.SameLengths → d.nullsColocated = true ∨ r.nullsColocated = false) := by
  constructor
  · intro hsound hd hr
    by_contra hnulls
    simp only [not_or, Bool.not_eq_true, Bool.not_eq_false] at hnulls
    have hp := hsound (nullSemantics W) nullRows id (equivsHold_nullSemantics hd)
      (equivsHold_nullSemantics hr) (complies_nullSemantics hnulls.1 id)
    obtain ⟨n, hn, hnull⟩ := exists_nullsColocated hnulls.2
    have heq := hp n hn false (.inl hnull)
    cases heq
  · intro hnulls ν η σ ρ S val p hd hr hcomplies
    rw [complies_iff hd] at hcomplies
    rw [complies_iff hr]
    intro x hx
    have hcond := hnulls (sameLengths_of_equivsHold hd x) (sameLengths_of_equivsHold hr x)
    rw [← key_eq_of_matchesHashed hd hr h x] at hx ⊢
    refine hcomplies x ?_
    rcases hx with hx | hx
    · exact .inl (hcond.resolve_right (by simp [hx]))
    · exact .inr hx

variable [DecidableEq φ]

/-- **A distribution that is accepted collocates what is required exactly if it colocates NULLs or
this is not required.** -/
theorem satisfactionSound_iff {d r : CDistributionSpecHashed W}
    (h : d.fSatisfies (.hashed r) = some true) : SatisfactionSound d r ↔
      (d.SameLengths → r.SameLengths → d.nullsColocated = true ∨ r.spec.fNullsColocated = false) := by
  constructor
  · intro hsound hd hr
    by_contra hnulls
    simp only [not_or, Bool.not_eq_true, Bool.not_eq_false] at hnulls
    have hp := hsound (nullSemantics W) nullRows id (equivsHold_nullSemantics hd)
      (equivsHold_nullSemantics hr) (complies_nullSemantics hnulls.1 id)
    have heq := hp true false fun e _ => ⟨rfl, .inl hnulls.2⟩
    cases heq
  · intro hnulls ν η σ ρ S val p hd hr hcomplies x y hxy
    obtain ⟨hkey, hnone⟩ := key_of_fSatisfies hd hr h hxy
    have hcond := hnulls (sameLengths_of_equivsHold hd x) (sameLengths_of_equivsHold hr x)
    have hboth : d.nullsColocated = true ∨ none ∉ d.spec.key S (val x) := by
      rcases hcond with hcond | hcond
      · exact .inl hcond
      · exact .inr (hnone.resolve_left (by rw [hcond]; exact Bool.false_ne_true))
    rw [(complies_iff hd).1 hcomplies x hboth, (complies_iff hd).1 hcomplies y (hkey ▸ hboth), hkey]

variable [DecidableEq κ]

/-- **A hashed distribution that is accepted gives what is required exactly if NULLs are colocated
where this is required.**  Copies, combined and stripped specifications mean the same, but a copy with
other columns does so only if the last specification of the chain has default families, and
stripping only if the specification itself colocates NULLs or none of the chain does. -/
theorem hashed_distribution_gives_required_iff (d r : CDistributionSpecHashed W) :
    (d.fSatisfies (.hashed r) = some true → (SatisfactionSound d r ↔
      (d.SameLengths → r.SameLengths → d.nullsColocated = true ∨ r.spec.fNullsColocated = false))) ∧
    (d.matchesSpec (.hashed r) = true → (MatchSound d r ↔
      (d.SameLengths → r.SameLengths → d.nullsColocated = true ∨ r.nullsColocated = false))) ∧
    (∀ d' : CDistributionSpecHashed W, MatchSound d r → MatchSound d' r →
      ∀ {ν η σ ρ ρ' : Type} (S : ScalarSemantics W ν η σ) (val : ρ → κ → Option ν) (p : ρ → σ)
        (val' : ρ' → κ → Option ν) (p' : ρ' → σ),
        d.EquivsHold S val → d'.EquivsHold S val' → r.EquivsHold S val → r.EquivsHold S val' →
        d.Complies S val p → d'.Complies S val' p' → ∀ x y,
          r.spec.key S (val x) = r.spec.key S (val' y) →
          r.nullsColocated = true ∨ none ∉ r.spec.key S (val x) → p x = p' y) ∧
    (∀ {ν η σ ρ : Type} (S : ScalarSemantics W ν η σ) (val : ρ → κ → Option ν) (p : ρ → σ),
      (d.copy.Complies S val p ↔ d.Complies S val p) ∧
      ((d.combine r).Complies S val p ↔ d.Complies S val p ∧ r.Complies S val p) ∧
      ∀ equivClass, HashedSpec.ClassesHold S val equivClass → d.EquivsHold S val →
        (d.computeEquivHashExprs equivClass).EquivsHold S val) ∧
    (StripSound d ↔ (d.SameLengths → d.spec.fNullsColocated = true ∨ d.nullsColocated = false)) ∧
    (∀ m, SameMeaning m d (d.pdsCopyWithRemappedColumns m) ↔
      d.lastSpec.families = d.lastSpec.pdrgpexpr.map W.defaultFamily) := by
  refine ⟨satisfactionSound_iff, matchSound_iff, ?_, ?_, stripSound_iff d, sameMeaning_remap_iff d⟩
  · intro d' hd hd' ν η σ ρ ρ' S val p val' p' hequiv hequiv' hr hr' hp hp' x y hkey hnulls
    exact segment_eq_of_complies hr hr' (hd S val p hequiv hr hp) (hd' S val' p' hequiv' hr' hp')
      hkey hnulls
  · exact fun S val p => ⟨complies_copy d, complies_combine d r,
      fun equivClass hclass h => equivsHold_computeEquivHashExprs hclass h⟩

/-- Expressions that are columns, and families of which `0` is the default one. -/
def columnWorld : ScalarWorld ℕ ℕ ℕ ℕ where
  equals e e' := e = e'
  withoutBinaryCoercibleCasts e := e
  distrOpfamilyMdid _ := some 0
  mdid mdid := mdid
  remap m e := m e
  usedColumn e := some e
  scalarEqCmp c c' := (c, c')
  considerOpfamilies := true
  distrOpfamilyMdid_equals _ := rfl
  distrOpfamilyMdid_remap _ _ := rfl

def onColumn (c : ℕ) (fNullsColocated : Bool) (family : ℕ) : HashedSpec columnWorld :=
  .make [c] (cons_ne_nil _ _) fNullsColocated (some [family]) fun mdids h => by
    cases h
    rfl

/-- A distribution that does not colocate NULLs matches a request that asks for it, because the
equivalent specification of the request is compared with exchanged roles; a copy with the same
columns of a specification that is not on the default family is on that one. -/
theorem nullsApart_accepted :
    let d : CDistributionSpecHashed columnWorld := ⟨onColumn 0 false 0, []⟩
    let r : CDistributionSpecHashed columnWorld := ⟨onColumn 1 true 0, [onColumn 0 true 0]⟩
    let legacy : CDistributionSpecHashed columnWorld := ⟨onColumn 0 true 1, []⟩
    d.matchesSpec (.hashed r) = true ∧ d.fSatisfies (.hashed r) = some true ∧ ¬MatchSound d r ∧
      ¬SatisfactionSound d r ∧
      (legacy.pdsCopyWithRemappedColumns id).spec.opfamilies = some [0] ∧
      ¬SameMeaning id legacy (legacy.pdsCopyWithRemappedColumns id) := by
  intro d r legacy
  have hmatch : d.matchesSpec (.hashed r) = true := by
    have hswap : matchesHashed ⟨onColumn 0 true 0, []⟩ d = true := by
      rw [matchesHashed]
      decide
    rw [matchesSpec, matchesHashed]
    simp [d, r, hswap]
  have hsat : d.fSatisfies (.hashed r) = some true := if_pos hmatch
  have hd : d.SameLengths := by
    intro n hn
    rw [mem_singleton.1 hn]
  have hr : r.SameLengths := by
    intro n hn
    simp only [chain, r, mem_cons, not_mem_nil, or_false] at hn
    rcases hn with rfl | rfl <;> rfl
  refine ⟨hmatch, hsat, ?_, ?_, rfl, ?_⟩
  · intro h
    have hnulls := (matchSound_iff hmatch).1 h hd hr
    revert hnulls
    decide
  · intro h
    have hnulls := (satisfactionSound_iff hsat).1 h hd hr
    revert hnulls
    decide
  · rw [sameMeaning_remap_iff]
    decide

end CDistributionSpecHashed

end Cloudberry.Orca

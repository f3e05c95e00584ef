/-
# Combining the statistics of two files

`MicroPartitionStatisticsInfoCombine` of
`contrib/pax_storage/src/cpp/storage/micro_partition_stats.cc`: all columns are checked, and then
the statistics of two sets of rows are put together.

A range that only one side has is kept, as if the other side had no values; but a range may also
be missing because it was not collected. If both sides have one, the bounds are compared with the
operators of the type. The functions of PAX are called if there are any, also where only the
operators of the database support the collation, and then raise an exception
(`textop::VarstrCmp`).
-/

import Mathlib.Data.List.Basic

namespace Cloudberry.Pax

open List

/-- An object id. -/
abbrev Oid : Type := ℕ

/-- `CException::ExType`: a collation is missing, a collation is not supported, or an error of the
database was caught. -/
inductive ExType where
  | kExTypeLogicError
  | kExTypeUnImplements
  | kExTypeCError
deriving DecidableEq, Repr

/-- A comparison, called with a collation. -/
abbrev Oper (α : Type) : Type := Oid → α → α → Except ExType Bool

/-- No collation, the default one, C or POSIX. -/
def collateIsSupport (collid : Oid) : Bool :=
  collid == 0 || collid == 100 || collid == 950 || collid == 951

/-- A column of the relation: `<`, `>` and `<=` of its type under a collation, the functions of PAX
and the operators of the database that compute `<` and `>`, if there are any, and `+` for the types
of sums. No law of orders is assumed: for box, lseg and circle sizes that differ by at most
`EPSILON` are equal, so that `<=` is not transitive. -/
structure Attr (α β : Type) where
  attcollation : Oid
  lt : Oid → α → α → Bool
  gt : Oid → α → α → Bool
  le : Oid → α → α → Bool
  localFuncs : Option (Oper α × Oper α)
  pgOpers : Option (Oper α × Oper α)
  addOperator : Oid → Oid → Option (β → β → Except ExType β)
  returns_lt : ∀ f, localFuncs = some f ∨ pgOpers = some f →
    ∀ c a b r, f.1 c a b = .ok r → r = lt c a b
  returns_gt : ∀ f, localFuncs = some f ∨ pgOpers = some f →
    ∀ c a b r, f.2 c a b = .ok r → r = gt c a b

/-- `ColumnStats`, with the fields of its `info` and `dataStats` and with a bloom filter told by
the values it has. -/
structure ColumnStats (α β : Type) where
  allnull : Bool
  hasnull : Bool
  nonNullRows : BitVec 64
  collation : Oid
  prorettype : Oid
  minimal : Option α
  maximum : Option α
  sum : Option β
  bloomFilter : Option (α → Bool)

section

variable {α β : Type} (attr : Attr α β) (allowFallbackToPg : Bool) (left right : ColumnStats α β)

/-- One column of `PrepareStatisticsInfoCombine`. -/
def prepareColumn : Bool :=
  left.collation == right.collation &&
    (attr.attcollation == left.collation || left.collation == 0) &&
    (!(right.minimal.isSome && left.minimal.isSome) ||
      (attr.localFuncs.isSome && collateIsSupport attr.attcollation ||
        allowFallbackToPg && attr.pgOpers.isSome)) &&
    (!(left.sum.isSome && right.sum.isSome) ||
      (attr.addOperator left.prorettype right.prorettype).isSome)

/-- Whether two messages can be combined: they have as many columns, and each can be. -/
def prepareStatisticsInfoCombine (desc : List (Attr α β)) (left right : List (ColumnStats α β)) :
    Bool :=
  left.length == right.length && (desc.zip (left.zip right)).all fun c =>
    prepareColumn c.1 allowFallbackToPg c.2.1 c.2.2

/-- The flags and the count of the values that are not NULL. -/
def commStatisticsInfoCombine : ColumnStats α β :=
  { left with
    allnull := if left.allnull && !right.allnull then false else left.allnull
    hasnull := if !left.hasnull && right.hasnull then true else left.hasnull
    nonNullRows := left.nonNullRows + right.nonNullRows }

/-- One end of the range, with the comparison that says if the right bound is the better one. -/
def boundCombine (better : α → α → Except ExType Bool) :
    Option α → Option α → Except ExType (Option α)
  | left, none => .ok left
  | none, some right => .ok (some right)
  | some left, some right =>
    match better right left with
    | .error e => .error e
    | .ok rc => .ok (some (if rc then right else left))

/-- The functions that are called. -/
def Attr.opers : Oper α × Oper α :=
  (attr.localFuncs.or attr.pgOpers).getD (fun _ _ _ => .ok false, fun _ _ _ => .ok false)

/-- Both ends of the range. The collation that is passed is that of the right message. -/
def minMaxStatisticsInfoCombine : Except ExType (ColumnStats α β) :=
  match boundCombine (attr.opers.1 right.collation) left.minimal right.minimal,
      boundCombine (attr.opers.2 right.collation) left.maximum right.maximum with
  | .ok minimal, .ok maximum => .ok { left with minimal, maximum }
  | .error e, _ | .ok _, .error e => .error e

/-- The sum, with `+` of the type of sums where both sides have one. -/
def sumStatisticsInfoCombine : Except ExType (ColumnStats α β) :=
  match left.sum, right.sum, attr.addOperator left.prorettype right.prorettype with
  | some s, some s', some add =>
    match add s s' with
    | .error e => .error e
    | .ok sum => .ok { left with sum := some sum }
  | none, some s, _ => .ok { left with sum := some s }
  | _, _, _ => .ok left

/-- What is done to one column, the clearing of its bloom filter included. -/
def combineColumn : Except ExType (ColumnStats α β) :=
  match minMaxStatisticsInfoCombine attr (commStatisticsInfoCombine left right) right with
  | .error e => .error e
  | .ok left =>
    match sumStatisticsInfoCombine attr left right with
    | .error e => .error e
    | .ok left => .ok { left with bloomFilter := none }

/-- The columns one after the other; an exception ends the loop. -/
def combineColumns : List (Attr α β) → List (ColumnStats α β) → List (ColumnStats α β) →
    Except ExType (List (ColumnStats α β))
  | attr :: desc, left :: lefts, right :: rights =>
    match combineColumn attr left right with
    | .error e => .error e
    | .ok column =>
      match combineColumns desc lefts rights with
      | .error e => .error e
      | .ok columns => .ok (column :: columns)
  | _, _, _ => .ok []

/-- The value returned, and the left message afterwards; or the exception that is raised. -/
def microPartitionStatisticsInfoCombine (desc : List (Attr α β))
    (left right : List (ColumnStats α β)) : Except ExType (Bool × List (ColumnStats α β)) :=
  if prepareStatisticsInfoCombine allowFallbackToPg desc left right then
    match combineColumns desc left right with
    | .error e => .error e
    | .ok columns => .ok (true, columns)
  else .ok (false, left)

/-! ### What statistics say about rows -/

/-- A bound, if there is one, is in the relation `R` to every value. -/
def Encloses (R : α → α → Bool) (bound : Option α) (values : List (Option α)) : Prop :=
  ∀ b ∈ bound, ∀ v, some v ∈ values → R b v = true

/-- The statistics of a column are true of its values. -/
structure ColumnSound (c : ColumnStats α β) (values : List (Option α)) : Prop where
  allnull : c.allnull = values.all Option.isNone
  hasnull : c.hasnull = values.any Option.isNone
  nonNullRows : c.nonNullRows = BitVec.ofNat 64 (values.countP Option.isSome)
  both : c.minimal.isSome = c.maximum.isSome
  collation : c.minimal.isSome = true → c.collation = attr.attcollation
  minimal : Encloses (attr.le attr.attcollation) c.minimal values
  maximum : Encloses (flip (attr.le attr.attcollation)) c.maximum values
  bloomFilter : ∀ test ∈ c.bloomFilter, ∀ v, some v ∈ values → test v = true

/-- The statistics of each column are true of what the rows have in it. -/
structure Sound (desc : List (Attr α β)) (columns : List (ColumnStats α β))
    (rows : List (ℕ → Option α)) : Prop where
  length_le : columns.length ≤ desc.length
  column : ∀ i attr c, desc[i]? = some attr → columns[i]? = some c →
    ColumnSound attr c (rows.map (· i))

/-- The statistics of a file together with its rows. -/
structure FileStats (desc : List (Attr α β)) where
  columns : List (ColumnStats α β)
  rows : List (ℕ → Option α)
  sound : Sound desc columns rows

/-- `<` and `<=` go together as in an order, from the one bound over the other to the values: what is
beyond `b` is beyond `a` unless `b` is better, and what is beyond `a` is beyond `b` if it is. -/
def Chains (R better : α → α → Bool) (a b : α) (ls rs : List (Option α)) : Prop :=
  (∀ v, some v ∈ rs → better b a = false → R b v = true → R a v = true) ∧
    ∀ v, some v ∈ ls → better b a = true → R a v = true → R b v = true

/-- If both sides have a bound, it `Chains`; if one of them has none, the bound of the other side
is one for its values as well. -/
def BoundFits (R better : α → α → Bool) (left right : Option α) (ls rs : List (Option α)) : Prop :=
  match left, right with
  | some a, some b => Chains R better a b ls rs
  | _, _ => Encloses R left rs ∧ Encloses R right ls

/-- Both ends of the range fit. -/
def Fits (ls rs : List (Option α)) : Prop :=
  BoundFits (attr.le attr.attcollation) (attr.lt attr.attcollation) left.minimal right.minimal
      ls rs ∧
    BoundFits (flip (attr.le attr.attcollation)) (attr.gt attr.attcollation) left.maximum
      right.maximum ls rs

end

/-! ### One column -/

variable {α β : Type}

section

variable {R better : α → α → Bool} {l r bound : Option α} {ls rs : List (Option α)}

theorem encloses_append :
    Encloses R bound (ls ++ rs) ↔ Encloses R bound ls ∧ Encloses R bound rs := by
  simp [Encloses, or_imp, forall_and]

theorem encloses_some {a : α} :
    Encloses R (some a) ls ↔ ∀ v, some v ∈ ls → R a v = true := by
  simp [Encloses]

/-- The bounds of a type whose `<=` is total and transitive, with `<` as its negation the other way
round, always fit. -/
theorem chains_of_order (htotal : ∀ a b, R a b = true ∨ R b a = true)
    (htrans : ∀ a b c, R a b = true → R b c = true → R a c = true)
    (hbetter : ∀ a b, better b a = !R a b) (a b : α) : Chains R better a b ls rs := by
  refine ⟨fun v _ hnot hb => htrans a b v ?_ hb, fun v _ hlt ha => htrans b a v ?_ ha⟩
  · simpa [hbetter] using hnot
  · rw [hbetter, Bool.not_eq_true'] at hlt
    exact (htotal a b).resolve_left (by rw [hlt]; exact Bool.false_ne_true)

/-- Of two bounds the one is kept that the comparison says. -/
theorem eq_of_boundCombine {f : α → α → Except ExType Bool} {a b : α}
    (hrun : boundCombine f (some a) (some b) = .ok bound) :
    ∃ rc, f b a = .ok rc ∧ bound = some (if rc then b else a) := by
  rw [boundCombine] at hrun
  split at hrun
  · cases hrun
  next rc hrc => exact ⟨rc, hrc, (Except.ok.inj hrun).symm⟩

theorem boundCombine_isSome {f : α → α → Except ExType Bool}
    (hrun : boundCombine f l r = .ok bound) : bound.isSome = (l.isSome || r.isSome) := by
  rcases l with _ | a <;> rcases r with _ | b
  case some.some =>
    obtain ⟨rc, -, rfl⟩ := eq_of_boundCombine hrun
    rfl
  all_goals
    cases hrun
    rfl

/-- What the combined bound encloses, if two bounds are compared as `better` has it. -/
theorem encloses_boundCombine_iff {f : α → α → Except ExType Bool}
    (hf : l.isSome = true → r.isSome = true → ∀ a b rc, f a b = .ok rc → rc = better a b)
    (hrun : boundCombine f l r = .ok bound) (hl : Encloses R l ls) (hr : Encloses R r rs) :
    Encloses R bound (ls ++ rs) ↔ BoundFits R better l r ls rs := by
  rw [encloses_append]
  rcases l with _ | a <;> rcases r with _ | b
  case some.some =>
    obtain ⟨rc, hrc, rfl⟩ := eq_of_boundCombine hrun
    obtain rfl := hf rfl rfl b a rc hrc
    rw [encloses_some] at hl hr
    cases hlt : better b a with
    | false =>
      simp only [Bool.false_eq_true, if_false, encloses_some, BoundFits, Chains, hlt]
      exact ⟨fun h => ⟨fun v hv _ _ => h.2 v hv, nofun⟩,
        fun h => ⟨hl, fun v hv => h.1 v hv trivial (hr v hv)⟩⟩
    | true =>
      simp only [if_true, encloses_some, BoundFits, Chains, hlt]
      exact ⟨fun h => ⟨nofun, fun v hv _ _ => h.1 v hv⟩,
        fun h => ⟨fun v hv => h.2 v hv trivial (hl v hv), hr⟩⟩
  · cases hrun
    simp [BoundFits, Encloses]
  · cases hrun
    simpa [BoundFits, hr] using fun _ => nofun
  · cases hrun
    simpa [BoundFits, hl] using fun _ => nofun

end

variable {attr : Attr α β} {left right column : ColumnStats α β} {fallback : Bool}

/-- What `combineColumn` leaves in the fields that statistics are about. -/
structure Combined (attr : Attr α β) (left right column : ColumnStats α β) : Prop where
  minimal : boundCombine (attr.opers.1 right.collation) left.minimal right.minimal =
    .ok column.minimal
  maximum : boundCombine (attr.opers.2 right.collation) left.maximum right.maximum =
    .ok column.maximum
  comm : column.allnull = (commStatisticsInfoCombine left right).allnull ∧
    column.hasnull = (commStatisticsInfoCombine left right).hasnull ∧
    column.nonNullRows = left.nonNullRows + right.nonNullRows
  collation : column.collation = left.collation
  bloomFilter : column.bloomFilter = none

theorem combined_of_ok (h : combineColumn attr left right = .ok column) :
    Combined attr left right column := by
  unfold combineColumn at h
  split at h
  · cases h
  next ranged hranged =>
    unfold minMaxStatisticsInfoCombine at hranged
    split at hranged
    next minimal maximum hmin hmax =>
      cases hranged
      split at h
      · cases h
      next summed hsum =>
        -- only the field of the sum is written
        obtain ⟨sum, rfl⟩ : ∃ sum, summed =
            { commStatisticsInfoCombine left right with minimal, maximum, sum } := by
          unfold sumStatisticsInfoCombine at hsum
          split at hsum
          · split at hsum
            · cases hsum
            · exact ⟨_, (Except.ok.inj hsum).symm⟩
          · exact ⟨_, (Except.ok.inj hsum).symm⟩
          · exact ⟨_, (Except.ok.inj hsum).symm⟩
        cases h
        exact ⟨hmin, hmax, ⟨rfl, rfl, rfl⟩, rfl, rfl⟩
    · cases hranged
    · cases hranged

/-- The functions that are called return `<` and `>` of the type, if they return. -/
theorem opers_returns (hprepare : prepareColumn attr fallback left right = true)
    (hl : left.minimal.isSome = true) (hr : right.minimal.isSome = true) (c : Oid) (a b : α)
    (rc : Bool) : (attr.opers.1 c a b = .ok rc → rc = attr.lt c a b) ∧
      (attr.opers.2 c a b = .ok rc → rc = attr.gt c a b) := by
  cases hf : attr.localFuncs with
  | some f =>
    rw [Attr.opers, hf]
    exact ⟨attr.returns_lt f (.inl hf) c a b rc, attr.returns_gt f (.inl hf) c a b rc⟩
  | none =>
    cases hg : attr.pgOpers with
    | some g =>
      rw [Attr.opers, hf, hg]
      exact ⟨attr.returns_lt g (.inr hg) c a b rc, attr.returns_gt g (.inr hg) c a b rc⟩
    | none => simp [prepareColumn, hf, hg, hl, hr] at hprepare

variable {ls rs : List (Option α)}

/-- The combined statistics of a column are true of the values of both sides exactly if the ranges
fit. -/
theorem columnSound_combine_iff (hprepare : prepareColumn attr fallback left right = true)
    (hrun : combineColumn attr left right = .ok column) (hl : ColumnSound attr left ls)
    (hr : ColumnSound attr right rs) :
    ColumnSound attr column (ls ++ rs) ↔ Fits attr left right ls rs := by
  have hc := combined_of_ok hrun
  have hreturns : left.minimal.isSome = true → right.minimal.isSome = true → ∀ a b rc,
      (attr.opers.1 right.collation a b = .ok rc → rc = attr.lt attr.attcollation a b) ∧
        (attr.opers.2 right.collation a b = .ok rc → rc = attr.gt attr.attcollation a b) := by
    intro hls hrs a b rc
    rw [hr.collation hrs]
    exact opers_returns hprepare hls hrs attr.attcollation a b rc
  have hmin := encloses_boundCombine_iff (fun hls hrs a b rc => (hreturns hls hrs a b rc).1)
    hc.minimal hl.minimal hr.minimal
  have hmax := encloses_boundCombine_iff
    (fun hls hrs a b rc => (hreturns (hl.both ▸ hls) (hr.both ▸ hrs) a b rc).2)
    hc.maximum hl.maximum hr.maximum
  refine ⟨fun h => ⟨hmin.1 h.minimal, hmax.1 h.maximum⟩, fun hfits => ?_⟩
  have hcollation : left.collation = right.collation := by
    simp only [prepareColumn, Bool.and_eq_true, beq_iff_eq] at hprepare
    exact hprepare.1.1.1
  refine ⟨?_, ?_, ?_, ?_, fun h => ?_, hmin.2 hfits.1, hmax.2 hfits.2, ?_⟩
  · rw [hc.comm.1, commStatisticsInfoCombine, all_append, ← hl.allnull, ← hr.allnull]
    cases left.allnull <;> cases right.allnull <;> rfl
  · rw [hc.comm.2.1, commStatisticsInfoCombine, any_append, ← hl.hasnull, ← hr.hasnull]
    cases left.hasnull <;> cases right.hasnull <;> rfl
  · rw [hc.comm.2.2, hl.nonNullRows, hr.nonNullRows, countP_append, BitVec.ofNat_add]
  · rw [boundCombine_isSome hc.minimal, boundCombine_isSome hc.maximum, hl.both, hr.both]
  · rw [boundCombine_isSome hc.minimal, Bool.or_eq_true] at h
    rw [hc.collation]
    rcases h with h | h
    · exact hl.collation h
    · exact hcollation.trans (hr.collation h)
  · rw [hc.bloomFilter]
    exact nofun

/-! ### All columns -/

/-- The columns that are left are those that are combined, each at its place. -/
theorem combineColumns_spec {desc : List (Attr α β)} {lefts rights columns : List (ColumnStats α β)}
    (hrun : combineColumns desc lefts rights = .ok columns) (i : ℕ) :
    columns.length ≤ desc.length ∧
    (∀ {attr l r}, desc[i]? = some attr → lefts[i]? = some l → rights[i]? = some r →
      ∃ c, columns[i]? = some c ∧ combineColumn attr l r = .ok c) ∧
    ∀ {c}, columns[i]? = some c → ∃ attr l r, desc[i]? = some attr ∧ lefts[i]? = some l ∧
      rights[i]? = some r ∧ combineColumn attr l r = .ok c := by
  fun_induction combineColumns desc lefts rights generalizing columns i with
  | case1 | case2 => cases hrun
  | case3 attr desc left lefts right rights column hcolumn rest hrest ih =>
    cases hrun
    cases i with
    | zero =>
      refine ⟨Nat.succ_le_succ (ih hrest 0).1, ?_, ?_⟩
      · rintro _ _ _ ⟨⟩ ⟨⟩ ⟨⟩
        exact ⟨column, rfl, hcolumn⟩
      · rintro _ ⟨⟩
        exact ⟨attr, left, right, rfl, rfl, rfl, hcolumn⟩
    | succ i => exact ⟨Nat.succ_le_succ (ih hrest i).1, (ih hrest i).2⟩
  | case4 desc lefts rights hshort =>
    cases hrun
    refine ⟨Nat.zero_le _, fun {attr l r} hattr hl hr => ?_, nofun⟩
    match desc, lefts, rights with
    | [], _, _ => cases hattr
    | _, [], _ => cases hl
    | _, _, [] => cases hr
    | attr :: desc, left :: lefts, right :: rights => exact (hshort _ _ _ _ _ _ rfl rfl rfl).elim

/-- **Combined statistics** are true of the rows of both sides exactly if the ranges of each column
fit: where a side has no range that of the other side encloses its values too, and where both have
one the operators of the type go together as in an order. If the message is refused it is left as it
is; nothing is said about an exception. -/
theorem combine_sound_iff (desc : List (Attr α β)) (fallback : Bool) (left right : FileStats desc) :
    match microPartitionStatisticsInfoCombine fallback desc left.columns right.columns with
    | .error _ => True
    | .ok (false, result) => result = left.columns
    | .ok (true, result) => Sound desc result (left.rows ++ right.rows) ↔
        ∀ i attr l r, desc[i]? = some attr → left.columns[i]? = some l →
          right.columns[i]? = some r →
          Fits attr l r (left.rows.map (· i)) (right.rows.map (· i)) := by
  rw [microPartitionStatisticsInfoCombine]
  split_ifs with hprepare
  · cases hrun : combineColumns desc left.columns right.columns with
    | error e => trivial
    | ok columns =>
      rw [prepareStatisticsInfoCombine, Bool.and_eq_true, beq_iff_eq, all_eq_true] at hprepare
      have hspec := combineColumns_spec hrun
      have hcolumn : ∀ (i : ℕ) {attr l r c}, desc[i]? = some attr → left.columns[i]? = some l →
          right.columns[i]? = some r → combineColumn attr l r = .ok c →
          (ColumnSound attr c ((left.rows ++ right.rows).map (· i)) ↔
            Fits attr l r (left.rows.map (· i)) (right.rows.map (· i))) := by
        intro i attr l r c hattr hl hr hc
        rw [map_append]
        have hmem : (attr, l, r) ∈ desc.zip (left.columns.zip right.columns) :=
          mem_of_getElem? (getElem?_zip_eq_some.2 ⟨hattr, getElem?_zip_eq_some.2 ⟨hl, hr⟩⟩)
        exact columnSound_combine_iff (hprepare.2 _ hmem) hc (left.sound.column i attr l hattr hl)
          (right.sound.column i attr r hattr hr)
      constructor
      · intro hsound i attr l r hattr hl hr
        obtain ⟨c, hat, hc⟩ := (hspec i).2.1 hattr hl hr
        exact (hcolumn i hattr hl hr hc).1 (hsound.column i attr c hattr hat)
      · intro hfits
        refine ⟨(hspec 0).1, fun i attr c hattr hat => ?_⟩
        obtain ⟨_, l, r, hattr', hl, hr, hc⟩ := (hspec i).2.2 hat
        obtain rfl := Option.some.inj (hattr.symm.trans hattr')
        exact (hcolumn i hattr hl hr hc).2 (hfits i attr l r hattr hl hr)
  · rfl

/-- An integer column. -/
def int4 : Attr ℕ ℕ where
  attcollation := 0
  lt := fun _ a b => a < b
  gt := fun _ a b => a > b
  le := fun _ a b => a ≤ b
  localFuncs := some (fun _ a b => .ok (a < b), fun _ a b => .ok (a > b))
  pgOpers := none
  addOperator := fun _ _ => none
  returns_lt := by
    rintro f (⟨⟨⟩⟩ | ⟨⟨⟩⟩) c a b r hr
    exact (Except.ok.inj hr).symm
  returns_gt := by
    rintro f (⟨⟨⟩⟩ | ⟨⟨⟩⟩) c a b r hr
    exact (Except.ok.inj hr).symm

/-- The statistics of one value, with a range or without. -/
def oneValue (range : Option ℕ) : ColumnStats ℕ ℕ :=
  ⟨false, false, 1, 0, 0, range, range, none, none⟩

theorem sound_oneValue {range : Option ℕ} {v : ℕ} (hrange : ∀ m ∈ range, m = v) :
    Sound [int4] [oneValue range] [fun _ => some v] where
  length_le := Nat.le_refl 1
  column := by
    rintro (_ | i) _ c ⟨⟩ ⟨⟩
    refine ⟨rfl, rfl, rfl, rfl, fun _ => rfl, fun m hm u hu => ?_, fun m hm u hu => ?_, nofun⟩
    all_goals
      obtain rfl := hrange m hm
      cases hu with
      | head => simp [int4, flip]
      | tail _ h => cases h

/-- A file with one value and a range. -/
def rangeFile (v : ℕ) : FileStats [int4] :=
  ⟨[oneValue (some v)], [fun _ => some v], sound_oneValue (by simp)⟩

/-- A file with one value for which no range was collected. -/
def noRangeFile (v : ℕ) : FileStats [int4] :=
  ⟨[oneValue none], [fun _ => some v], sound_oneValue nofun⟩

/-- Two files with the values 5 and 9, each with its range: the operators of integers go together,
so the combined statistics are true of both rows. -/
theorem combined_five_nine : ∃ result,
    microPartitionStatisticsInfoCombine false [int4] (rangeFile 5).columns (rangeFile 9).columns
      = .ok (true, result) ∧ Sound [int4] result ((rangeFile 5).rows ++ (rangeFile 9).rows) := by
  refine ⟨_, rfl, (combine_sound_iff [int4] false (rangeFile 5) (rangeFile 9)).2 ?_⟩
  rintro (_ | i) _ _ _ ⟨⟩ ⟨⟩ ⟨⟩
  have htotal : ∀ a b : ℕ, decide (a ≤ b) = true ∨ decide (b ≤ a) = true := fun a b => by
    simpa using Nat.le_total a b
  have htrans : ∀ a b c : ℕ, decide (a ≤ b) = true → decide (b ≤ c) = true →
      decide (a ≤ c) = true := fun a b c => by simpa using Nat.le_trans
  have hlt : ∀ a b : ℕ, decide (b < a) = !decide (a ≤ b) := fun a b =>
    (decide_eq_decide.2 Nat.not_le.symm).trans (decide_not ..)
  exact ⟨chains_of_order htotal htrans hlt 5 9, chains_of_order (fun a b => htotal b a)
    (fun a b c hab hbc => htrans c b a hbc hab) (fun a b => hlt b a) 5 9⟩

/-- The range of a file with the value 5 is kept although the other file, for which no range was
collected, has the value 9. -/
theorem combined_too_narrow : ∃ result,
    microPartitionStatisticsInfoCombine false [int4] (rangeFile 5).columns (noRangeFile 9).columns
      = .ok (true, result) ∧
    ¬ Sound [int4] result ((rangeFile 5).rows ++ (noRangeFile 9).rows) := by
  refine ⟨_, rfl, fun h => ?_⟩
  have hmax := (h.column 0 _ _ rfl rfl).maximum 5 rfl 9 (by simp [rangeFile, noRangeFile])
  revert hmax
  decide

end Cloudberry.Pax

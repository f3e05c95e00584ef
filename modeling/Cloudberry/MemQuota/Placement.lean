/-
# Where the first walk puts the operators

The groups of a plan are numbered in the order in which the first walk comes to their root
operators, so the place of every operator can be told from the plan alone. `spots` does that,
and `prelimWalker_spec` says that the walk counts just these places: the counters of a group
are the numbers of its operators, its child groups are those whose root operator is in it,
and the maxima are the sums over its child groups.
-/

import Cloudberry.MemQuota.EagerFree

namespace Cloudberry.MemQuota

open List Function Nat OperatorGroupNode

/-! ### Both counters at once -/

namespace OperatorGroupNode

section

variable (g : OperatorGroupNode) (mem : Bool)

/-- The counter of the memory-intensive operators, or of the others. -/
def num : ℕ :=
  if mem then g.numMemIntenseOps else g.numNonMemIntenseOps

def maxConc : ℕ :=
  if mem then g.maxNumConcMemIntenseOps else g.maxNumConcNonMemIntenseOps

def conc : ℕ := max (g.maxConc mem) (g.num mem)

end

theorem num_incrementOperatorCount (op : Operator) (g : OperatorGroupNode) (mem : Bool) :
    (incrementOperatorCount op g).num mem =
      g.num mem + if isMemoryIntensiveOperator op = mem then 1 else 0 := by
  unfold incrementOperatorCount num
  cases isMemoryIntensiveOperator op <;> cases mem <;> rfl

end OperatorGroupNode

/-! ### The places of the operators -/

/-- The place of an operator. The root operator of a group below the top is in the parent
group as well, which is then its `border`. -/
structure Spot extends Visit where
  border : Option ℕ
deriving DecidableEq, Repr

def Spot.isIn (s : Spot) (g : ℕ) : Bool := s.group = g || s.border = some g

mutual

/-- How many groups begin in a part of the plan. -/
def newGroups : Node → ℕ
  | .plan op extParam parts =>
    (if isRootOperatorInGroup op extParam then 1 else 0) + newGroupsAll parts
  | .other parts => newGroupsAll parts

def newGroupsAll : List Node → ℕ
  | [] => 0
  | node :: nodes => newGroups node + newGroupsAll nodes

end

mutual

/-- The places of the operators of a part of the plan that is reached in the group `g` when `n`
is the next id. -/
def spots (g n : ℕ) : Node → List Spot
  | .plan op extParam parts =>
    if isRootOperatorInGroup op extParam then
      ⟨⟨op, extParam, n⟩, some g⟩ :: spotsAll n (n + 1) parts
    else ⟨⟨op, extParam, g⟩, none⟩ :: spotsAll g n parts
  | .other parts => spotsAll g n parts

def spotsAll (g n : ℕ) : List Node → List Spot
  | [] => []
  | node :: nodes => spots g n node ++ spotsAll g (n + newGroups node) nodes

end

/-- How many operators are counted in the group. -/
def count (S : List Spot) (mem : Bool) (x : ℕ) : ℕ :=
  S.countP fun s => isMemoryIntensiveOperator s.op = mem && s.isIn x

def kids (S : List Spot) (x : ℕ) : List ℕ :=
  (S.filter fun s => s.border = some x).map fun s => s.group

@[simp] theorem count_append (S T : List Spot) (mem : Bool) (x : ℕ) :
    count (S ++ T) mem x = count S mem x + count T mem x := countP_append

@[simp] theorem kids_append (S T : List Spot) (x : ℕ) : kids (S ++ T) x = kids S x ++ kids T x := by
  rw [kids, filter_append, map_append]
  rfl

theorem count_cons (s : Spot) (S : List Spot) (mem : Bool) (x : ℕ) : count (s :: S) mem x =
      count S mem x + if isMemoryIntensiveOperator s.op = mem ∧ s.isIn x = true then 1 else 0 := by
  simp [count, countP_cons]

theorem kids_cons (s : Spot) (S : List Spot) (x : ℕ) :
    kids (s :: S) x = if s.border = some x then s.group :: kids S x else kids S x := by
  by_cases hborder : s.border = some x <;> simp [kids, hborder]

/-- The groups and borders of a part of the plan: the group it is reached in, and new ones. -/
structure InScope (g n n' : ℕ) (s : Spot) : Prop where
  group : s.group = g ∨ n ≤ s.group ∧ s.group < n'
  border : ∀ p, s.border = some p → (p = g ∨ n ≤ p) ∧ p < s.group ∧ n ≤ s.group ∧ s.group < n'

theorem InScope.mono {g n m n' m' : ℕ} {s : Spot} (h : InScope g m m' s) (hn : n ≤ m)
    (hn' : m' ≤ n') : InScope g n n' s := by
  refine ⟨?_, fun p hp => ?_⟩
  · have := h.group
    omega
  · have := h.border p hp
    omega

mutual

theorem inScope_spots {g n : ℕ} (hg : g < n) :
    ∀ node, ∀ s ∈ spots g n node, InScope g n (n + newGroups node) s
  | .plan op extParam parts, s, hs => by
    rw [spots] at hs
    rw [newGroups]
    split_ifs at hs ⊢ with hroot
    · rcases mem_cons.1 hs with rfl | hs
      · refine ⟨.inr ⟨le_rfl, by simp only; omega⟩, ?_⟩
        rintro p ⟨⟩
        exact ⟨.inl rfl, hg, le_rfl, by simp only; omega⟩
      have hscope := inScope_spotsAll (lt_succ_self n) parts s hs
      refine ⟨?_, fun p hp => ?_⟩
      · have := hscope.group
        omega
      · have := hscope.border p hp
        omega
    · rcases mem_cons.1 hs with rfl | hs
      · exact ⟨.inl rfl, fun p hp => by cases hp⟩
      · rw [zero_add]
        exact inScope_spotsAll hg parts s hs
  | .other parts, s, hs => by
    rw [spots] at hs
    exact inScope_spotsAll hg parts s hs

theorem inScope_spotsAll {g n : ℕ} (hg : g < n) :
    ∀ nodes, ∀ s ∈ spotsAll g n nodes, InScope g n (n + newGroupsAll nodes) s
  | [], s, hs => by cases hs
  | node :: nodes, s, hs => by
    rw [spotsAll] at hs
    rw [newGroupsAll]
    rcases mem_append.1 hs with hs | hs
    · exact (inScope_spots hg node s hs).mono le_rfl (by omega)
    · exact (inScope_spotsAll (by omega) nodes s hs).mono (by omega) (by omega)

end

mutual

/-- Every new group has a root operator on the border to the group around it. -/
theorem exists_border_spots {g n : ℕ} : ∀ node, ∀ x, n ≤ x → x < n + newGroups node →
      ∃ s ∈ spots g n node, ∃ p, s.border = some p ∧ s.group = x
  | .plan op extParam parts, x, hn, hx => by
    rw [newGroups] at hx
    rw [spots]
    split_ifs at hx ⊢ with hroot
    · rcases eq_or_lt_of_le hn with rfl | hlt
      · exact ⟨_, mem_cons_self, g, rfl, rfl⟩
      · obtain ⟨s, hs, hborder⟩ := exists_border_spotsAll (g := n) parts x hlt (by omega)
        exact ⟨s, mem_cons_of_mem _ hs, hborder⟩
    · obtain ⟨s, hs, hborder⟩ := exists_border_spotsAll (g := g) parts x hn (by omega)
      exact ⟨s, mem_cons_of_mem _ hs, hborder⟩
  | .other parts, x, hn, hx => by
    rw [spots]
    exact exists_border_spotsAll parts x hn hx

theorem exists_border_spotsAll {g n : ℕ} : ∀ nodes, ∀ x, n ≤ x → x < n + newGroupsAll nodes →
      ∃ s ∈ spotsAll g n nodes, ∃ p, s.border = some p ∧ s.group = x
  | [], x, _, hx => by
    rw [newGroupsAll] at hx
    omega
  | node :: nodes, x, hn, hx => by
    rw [newGroupsAll] at hx
    rw [spotsAll]
    by_cases hfirst : x < n + newGroups node
    · obtain ⟨s, hs, hborder⟩ := exists_border_spots (g := g) node x hn hfirst
      exact ⟨s, mem_append_left _ hs, hborder⟩
    · obtain ⟨s, hs, hborder⟩ := exists_border_spotsAll (g := g) nodes x (not_lt.1 hfirst)
        (by omega)
      exact ⟨s, mem_append_right _ hs, hborder⟩

end

section OutOfScope

variable {S : List Spot} {g n n' x : ℕ}

section

variable (hS : ∀ s ∈ S, InScope g n n' s) (hx : x ≠ g) (hout : x < n ∨ n' ≤ x)
include hS hx hout

theorem count_eq_zero (mem : Bool) : count S mem x = 0 := by
  refine countP_eq_zero.2 fun s hs hin => ?_
  simp only [Spot.isIn, Bool.and_eq_true, Bool.or_eq_true, decide_eq_true_eq] at hin
  have hgroup := (hS s hs).group
  rcases hin.2 with _ | hborder
  · omega
  · have := (hS s hs).border x hborder
    omega

theorem kids_eq_nil : kids S x = []:= by
  rw [kids, map_eq_nil_iff, filter_eq_nil_iff]
  intro s hs hborder
  have := (hS s hs).border x (by simpa using hborder)
  omega

end

theorem mem_kids {c : ℕ} : c ∈ kids S x ↔ ∃ s ∈ S, s.border = some x ∧ s.group = c := by
  simp [kids, and_assoc]

theorem kids_in (hS : ∀ s ∈ S, InScope g n n' s) {c : ℕ} (hc : c ∈ kids S x) :
    x < c ∧ n ≤ c ∧ c < n' := by
  obtain ⟨s, hs, hborder, rfl⟩ := mem_kids.1 hc
  exact ((hS s hs).border x hborder).2

end OutOfScope

/-! ### What the first walk counts -/

section Walk

variable {h h' h'' : ℕ → OperatorGroupNode} {S T : List Spot} {g n m n' x : ℕ}

/-- The group is complete: its counters, its child groups and the maxima over them. -/
structure IsGroup (h : ℕ → OperatorGroupNode) (S : List Spot) (x : ℕ) : Prop where
  groupId : (h x).groupId = x
  childGroups : (h x).childGroups = kids S x
  num : ∀ mem, (h x).num mem = count S mem x
  maxConc : ∀ mem, (h x).maxConc mem = ((kids S x).map fun c => (h c).conc mem).sum

/-- What walking over a part of the plan does to the groups, if it is reached in `g` and its new
groups have the ids from `n` to `n'`. -/
structure Counted (h h' : ℕ → OperatorGroupNode) (S : List Spot) (g n n' : ℕ) : Prop where
  frame : ∀ x, x ≠ g → x < n ∨ n' ≤ x → h' x = h x
  current_id : (h' g).groupId = (h g).groupId
  current_parent : (h' g).parentGroup = (h g).parentGroup
  current_memKB : (h' g).groupMemKB = (h g).groupMemKB
  current_num : ∀ mem, (h' g).num mem = (h g).num mem + count S mem g
  current_kids : (h' g).childGroups = (h g).childGroups ++ kids S g
  isGroup : ∀ x, n ≤ x → x < n' → IsGroup h' S x
  memKB : ∀ x, n ≤ x → x < n' → (h' x).groupMemKB = 0
  parent : ∀ s ∈ S, ∀ p, s.border = some p → (h' s.group).parentGroup = some p

theorem IsGroup.congr (hx : IsGroup h S x) (heq : h' x = h x)
    (hkids : ∀ c ∈ kids S x, (h' c).conc = (h c).conc) (hT : kids T x = kids S x)
    (hcount : ∀ mem, count T mem x = count S mem x) : IsGroup h' T x where
  groupId := by rw [heq, hx.groupId]
  childGroups := by rw [heq, hx.childGroups, hT]
  num mem := by rw [heq, hx.num, hcount]
  maxConc mem := by
    rw [heq, hx.maxConc, hT]
    exact congrArg sum (map_congr_left fun c hc => by rw [hkids c hc])

theorem Counted.nil (h : ℕ → OperatorGroupNode) (g n : ℕ) : Counted h h [] g n n where
  frame _ _ _ := rfl
  current_id := rfl
  current_parent := rfl
  current_memKB := rfl
  current_num _ := rfl
  current_kids := (append_nil _).symm
  isGroup _ hn hn' := absurd hn' (not_lt.2 hn)
  memKB _ hn hn' := absurd hn' (not_lt.2 hn)
  parent _ hs := absurd hs not_mem_nil

theorem Counted.append (hS : Counted h h' S g n m) (hT : Counted h' h'' T g m n') (hg : g < n)
    (hnm : n ≤ m) (hmn : m ≤ n') (hSin : ∀ s ∈ S, InScope g n m s)
    (hTin : ∀ s ∈ T, InScope g m n' s) : Counted h h'' (S ++ T) g n n' where
  frame x hx hout := by
    rw [hT.frame x hx (by omega), hS.frame x hx (by omega)]
  current_id := by rw [hT.current_id, hS.current_id]
  current_parent := by rw [hT.current_parent, hS.current_parent]
  current_memKB := by rw [hT.current_memKB, hS.current_memKB]
  current_num mem := by rw [hT.current_num, hS.current_num, count_append, add_assoc]
  current_kids := by rw [hT.current_kids, hS.current_kids, kids_append, append_assoc]
  isGroup x hn hn' := by
    by_cases hx : x < m
    · refine (hS.isGroup x hn hx).congr (hT.frame x (by omega) (by omega)) (fun c hc => ?_) ?_ ?_
      · have hc' := kids_in hSin hc
        rw [hT.frame c (by omega) (by omega)]
      · rw [kids_append, kids_eq_nil hTin (by omega) (by omega), append_nil]
      · intro mem
        rw [count_append, count_eq_zero hTin (by omega) (by omega), add_zero]
    · refine (hT.isGroup x (by omega) hn').congr rfl (fun _ _ => rfl) ?_ ?_
      · rw [kids_append, kids_eq_nil hSin (by omega) (by omega), nil_append]
      · intro mem
        rw [count_append, count_eq_zero hSin (by omega) (by omega), zero_add]
  memKB x hn hn' := by
    by_cases hx : x < m
    · rw [hT.frame x (by omega) (by omega), hS.memKB x hn hx]
    · exact hT.memKB x (by omega) hn'
  parent s hs p hp := by
    rcases mem_append.1 hs with hs | hs
    · have hin := (hSin s hs).border p hp
      rw [hT.frame s.group (by omega) (by omega)]
      exact hS.parent s hs p hp
    · exact hT.parent s hs p hp

theorem incrementOperatorCount_fields (op : Operator) (y : OperatorGroupNode) :
    (incrementOperatorCount op y).groupId = y.groupId ∧
      (incrementOperatorCount op y).parentGroup = y.parentGroup ∧
      (incrementOperatorCount op y).groupMemKB = y.groupMemKB ∧
      (incrementOperatorCount op y).childGroups = y.childGroups := by
  unfold incrementOperatorCount
  split_ifs <;> exact ⟨rfl, rfl, rfl, rfl⟩

variable {op : Operator}

theorem Counted.inside {extParam : Bool} (hg : g < n)
    (hS : Counted (update h g (incrementOperatorCount op (h g))) h' S g n n') :
    Counted h h' (⟨⟨op, extParam, g⟩, none⟩ :: S) g n n' := by
  obtain ⟨hid, hparent, hmemKB, hchildren⟩ := incrementOperatorCount_fields op (h g)
  have hkids : ∀ x, kids (⟨⟨op, extParam, g⟩, none⟩ :: S) x = kids S x := by
    intro x
    rw [kids_cons, if_neg (by simp)]
  refine ⟨fun x hx hout => ?_, ?_, ?_, ?_, fun mem => ?_, ?_, fun x hn hn' => ?_, hS.memKB, ?_⟩
  · rw [hS.frame x hx hout, update_of_ne hx]
  · rw [hS.current_id, update_self, hid]
  · rw [hS.current_parent, update_self, hparent]
  · rw [hS.current_memKB, update_self, hmemKB]
  · rw [hS.current_num, update_self, num_incrementOperatorCount, count_cons]
    simp only [Spot.isIn, decide_true, Bool.true_or, and_true]
    omega
  · rw [hS.current_kids, update_self, hchildren, hkids]
  · refine (hS.isGroup x hn hn').congr rfl (fun _ _ => rfl) (hkids x) fun mem => ?_
    have hne : g ≠ x := by omega
    rw [count_cons, if_neg, add_zero]
    simp [Spot.isIn, hne]
  · intro s hs p hp
    rcases mem_cons.1 hs with rfl | hs
    · cases hp
    · exact hS.parent s hs p hp

/-- The groups after the root operator of the new group `n` has been entered from `g`. -/
def entered (h : ℕ → OperatorGroupNode) (op : Operator) (g n : ℕ) : ℕ → OperatorGroupNode :=
  update
    (update h n (incrementOperatorCount op (createOperatorGroupNode n (some g)))) g
    (incrementOperatorCount op { h g with childGroups := (h g).childGroups ++ [n] })

theorem entered_new (hne : g ≠ n) :
    entered h op g n n = incrementOperatorCount op (createOperatorGroupNode n (some g)) := by
  rw [entered, update_of_ne hne.symm, update_self]

/-- The groups after the group `x` has been closed. -/
def closed (h : ℕ → OperatorGroupNode) (x : ℕ) : ℕ → OperatorGroupNode :=
  update h x { h x with
      maxNumConcNonMemIntenseOps := ((h x).childGroups.map fun c => (h c).concNonMem).sum
      maxNumConcMemIntenseOps := ((h x).childGroups.map fun c => (h c).concMem).sum }

theorem closed_fields (h : ℕ → OperatorGroupNode) (x y : ℕ) :
    (closed h x y).groupId = (h y).groupId ∧ (closed h x y).parentGroup = (h y).parentGroup ∧
      (closed h x y).groupMemKB = (h y).groupMemKB ∧
      (closed h x y).childGroups = (h y).childGroups ∧
      ∀ mem, (closed h x y).num mem = (h y).num mem := by
  by_cases hy : y = x
  · subst hy
    rw [closed, update_self]
    exact ⟨rfl, rfl, rfl, rfl, fun _ => rfl⟩
  · rw [closed, update_of_ne hy]
    exact ⟨rfl, rfl, rfl, rfl, fun _ => rfl⟩

theorem closed_of_ne {y : ℕ} (hy : y ≠ x) : closed h x y = h y := update_of_ne hy ..

theorem maxConc_closed (h : ℕ → OperatorGroupNode) (x : ℕ) (mem : Bool) :
    (closed h x x).maxConc mem = ((h x).childGroups.map fun c => (h c).conc mem).sum := by
  rw [closed, update_self]
  cases mem <;> rfl

/-- Closing a group completes it, once everything in it has been counted. -/
theorem Counted.isGroup_closed (hS : Counted h h' S x (x + 1) n') (hid : (h x).groupId = x)
    (hchildren : (h x).childGroups = []) (hSin : ∀ s ∈ S, InScope x (x + 1) n' s) {T : List Spot}
    (hkids : ∀ y, x ≤ y → kids T y = kids S y)
    (hcount : ∀ mem, count T mem x = (h x).num mem + count S mem x)
    (hcount' : ∀ y, x < y → ∀ mem, count T mem y = count S mem y) :
    ∀ y, x ≤ y → y < n' → IsGroup (closed h' x) T y := by
  intro y hxy hyn
  have hne : ∀ z, ∀ c ∈ kids S z, x ≤ z → (closed h' x c).conc = (h' c).conc := by
    intro z c hc hz
    have := kids_in hSin hc
    rw [closed_of_ne (by omega)]
  rcases eq_or_lt_of_le hxy with rfl | hlt
  · obtain ⟨hid', -, -, hchildren', hnum⟩ := closed_fields h' x x
    have hall : (h' x).childGroups = kids S x := by
      rw [hS.current_kids, hchildren, nil_append]
    refine ⟨?_, ?_, fun mem => ?_, fun mem => ?_⟩
    · rw [hid', hS.current_id, hid]
    · rw [hchildren', hall, hkids x le_rfl]
    · rw [hnum, hS.current_num, hcount]
    · rw [maxConc_closed, hall, hkids x le_rfl]
      exact congrArg sum (map_congr_left fun c hc => by rw [hne x c hc le_rfl])
  · exact (hS.isGroup y hlt hyn).congr (closed_of_ne (by omega))
      (fun c hc => hne y c hc hxy) (hkids y hxy) (hcount' y hlt)

/-- The root operator of a new group, then what hangs on it, then the end of the group. -/
theorem Counted.root {extParam : Bool} (hg : g < n) (hn : n < n')
    (hS : Counted (entered h op g n) h' S n (n + 1) n') (hSin : ∀ s ∈ S, InScope n (n + 1) n' s) :
    Counted h (closed h' n) (⟨⟨op, extParam, n⟩, some g⟩ :: S) g n n' := by
  have hgn : g ≠ n := by omega
  have hnew : entered h op g n n =
      incrementOperatorCount op (createOperatorGroupNode n (some g)) := entered_new hgn
  obtain ⟨hid, hparent, hmemKB, hchildren⟩ :=
    incrementOperatorCount_fields op (createOperatorGroupNode n (some g))
  -- the group it was reached in has a child more and is not touched again
  have hcur : closed h' n g =
      incrementOperatorCount op { h g with childGroups := (h g).childGroups ++ [n] } := by
    rw [closed_of_ne hgn, hS.frame g hgn (by omega), entered, update_self]
  obtain ⟨hid', hparent', hmemKB', hchildren'⟩ := incrementOperatorCount_fields op
    { h g with childGroups := (h g).childGroups ++ [n] }
  have hkids : ∀ y, n ≤ y → kids (⟨⟨op, extParam, n⟩, some g⟩ :: S) y = kids S y := by
    intro y hy
    rw [kids_cons, if_neg]
    simp only [Option.some.injEq]
    omega
  refine ⟨fun x hx hout => ?_, ?_, ?_, ?_, fun mem => ?_, ?_, ?_, fun x hnx hxn => ?_, ?_⟩
  · rw [closed_of_ne (by omega), hS.frame x (by omega) (by omega), entered,
      update_of_ne hx, update_of_ne (by omega)]
  · rw [hcur, hid']
  · rw [hcur, hparent']
  · rw [hcur, hmemKB']
  · rw [hcur, num_incrementOperatorCount, count_cons, count_eq_zero hSin hgn (by omega)]
    simp [Spot.isIn, num]
  · rw [hcur, hchildren', kids_cons, if_pos rfl, kids_eq_nil hSin hgn (by omega)]
  · refine hS.isGroup_closed (by rw [hnew, hid]; rfl) (by rw [hnew, hchildren]; rfl) hSin hkids
      (fun mem => ?_) fun y hy mem => ?_
    · rw [hnew, num_incrementOperatorCount, count_cons]
      have hzero : (createOperatorGroupNode n (some g)).num mem = 0 := by cases mem <;> rfl
      simp only [Spot.isIn, decide_true, Bool.true_or, and_true, hzero]
      omega
    · have hny : n ≠ y := by omega
      have hgy : g ≠ y := by omega
      rw [count_cons, if_neg, add_zero]
      simp [Spot.isIn, hny, hgy]
  · rw [(closed_fields h' n x).2.2.1]
    rcases eq_or_lt_of_le hnx with rfl | hlt
    · rw [hS.current_memKB, hnew, hmemKB]
      rfl
    · exact hS.memKB x hlt hxn
  · intro s hs p hp
    rw [(closed_fields h' n s.group).2.1]
    rcases mem_cons.1 hs with rfl | hs
    · rw [hS.current_parent, hnew, hparent]
      exact hp
    · exact hS.parent s hs p hp

variable {ctx : PolicyEagerFreeContext} {op : Operator} {extParam : Bool}

theorem current_eq (hcur : ctx.groupNode = some g) : ctx.current = .ok g := by
  rw [PolicyEagerFreeContext.current, hcur]

variable {t : ℕ}

section

variable (htree : ctx.groupTree = some t) (hcur : ctx.groupNode = some g)
include htree hcur

theorem enterOperator_inside (hroot : isRootOperatorInGroup op extParam = false) :
    enterOperator op extParam ctx = .ok (g, { ctx with
        groups := update ctx.groups g (incrementOperatorCount op (ctx.groups g)) }) := by
  have hcreate : createOperatorGroupForOperator op extParam ctx = ctx := by
    simp [createOperatorGroupForOperator, htree, hroot]
  simp only [enterOperator, hcreate, current_eq hcur, ok_bind, hroot, pure_eq_ok,
    Bool.false_eq_true, if_false]
  split <;> rfl

theorem enterOperator_root (hg : g < ctx.nextGroupId)
    (hroot : isRootOperatorInGroup op extParam = true) :
    enterOperator op extParam ctx = .ok (ctx.nextGroupId, { ctx with
        groups := entered ctx.groups op g ctx.nextGroupId
        groupNode := some ctx.nextGroupId
        nextGroupId := ctx.nextGroupId + 1 }) := by
  have hne : g ≠ ctx.nextGroupId := hg.ne
  have hcreate : createOperatorGroupForOperator op extParam ctx = { ctx with
      groups := update (update ctx.groups ctx.nextGroupId
        (createOperatorGroupNode ctx.nextGroupId (some g))) g
        { ctx.groups g with childGroups := (ctx.groups g).childGroups ++ [ctx.nextGroupId] }
      groupNode := some ctx.nextGroupId
      nextGroupId := ctx.nextGroupId + 1 } := by
    simp [createOperatorGroupForOperator, htree, hroot, hcur, PolicyEagerFreeContext.modify,
      update_of_ne hne]
  have hparent : (incrementOperatorCount op
      (createOperatorGroupNode ctx.nextGroupId (some g))).parentGroup = some g :=
    (incrementOperatorCount_fields op _).2.1
  simp only [enterOperator, hcreate, PolicyEagerFreeContext.current, ok_bind, hroot, pure_eq_ok,
    if_true, PolicyEagerFreeContext.modify, update_self, update_of_ne hne.symm, update_of_ne hne,
    hparent]
  rw [entered, update_comm hne.symm, update_idem, update_comm hne, update_idem]

end

theorem closeGroup_eq (hcur : ctx.groupNode = some x) : closeGroup ctx = .ok { ctx with
      groups := closed ctx.groups x
      groupNode := (ctx.groups x).parentGroup } := by
  simp only [closeGroup, current_eq hcur, ok_bind, PolicyEagerFreeContext.modify, pure_eq_ok,
    update_self]
  rfl

theorem spots_inside (g n : ℕ) (parts : List Node) (hroot : isRootOperatorInGroup op extParam = false) :
    spots g n (.plan op extParam parts) = ⟨⟨op, extParam, g⟩, none⟩ :: spotsAll g n parts ∧
      newGroups (.plan op extParam parts) = newGroupsAll parts := by
  rw [spots, newGroups, hroot, if_neg Bool.false_ne_true, if_neg Bool.false_ne_true, zero_add]
  exact ⟨rfl, rfl⟩

theorem spots_root (g n : ℕ) (parts : List Node) (hroot : isRootOperatorInGroup op extParam = true) :
    spots g n (.plan op extParam parts) = ⟨⟨op, extParam, n⟩, some g⟩ :: spotsAll n (n + 1) parts ∧
      n + newGroups (.plan op extParam parts) = n + 1 + newGroupsAll parts := by
  rw [spots, newGroups, hroot, if_pos rfl, add_assoc]
  exact ⟨rfl, rfl⟩

mutual

/-- **The first walk counts the places.** It comes back to the group it was reached in. -/
theorem prelimWalker_spec : ∀ (node : Node) (ctx : PolicyEagerFreeContext) {g : ℕ},
    ctx.groupTree = some t → ctx.groupNode = some g → g < ctx.nextGroupId →
    ∃ h', prelimWalker node ctx = .ok ((spots g ctx.nextGroupId node).map Spot.toVisit,
        { ctx with groups := h', nextGroupId := ctx.nextGroupId + newGroups node }) ∧
      Counted ctx.groups h' (spots g ctx.nextGroupId node) g ctx.nextGroupId
        (ctx.nextGroupId + newGroups node)
  | .plan op extParam parts, ctx, g, htree, hcur, hg => by
    have hnotTop : ctx.groupTree.isNone = false := by rw [htree]; rfl
    cases hroot : isRootOperatorInGroup op extParam with
    | false =>
      obtain ⟨h', hwalk, hcounted⟩ := prelimWalkers_spec parts
        { ctx with
          groups := update ctx.groups g (incrementOperatorCount op (ctx.groups g)) }
        htree hcur hg
      obtain ⟨hspots, hnew⟩ := spots_inside g ctx.nextGroupId parts hroot
      rw [hspots, hnew]
      refine ⟨h', ?_, hcounted.inside hg⟩
      simp [prelimWalker, enterOperator_inside htree hcur hroot, hwalk, hnotTop, hroot]
    | true =>
      obtain ⟨h', hwalk, hcounted⟩ := prelimWalkers_spec parts
        { ctx with
          groups := entered ctx.groups op g ctx.nextGroupId
          groupNode := some ctx.nextGroupId
          nextGroupId := ctx.nextGroupId + 1 }
        htree rfl (lt_succ_self _)
      obtain ⟨hspots, hnew⟩ := spots_root g ctx.nextGroupId parts hroot
      rw [hspots, hnew]
      have hparent : (h' ctx.nextGroupId).parentGroup = ctx.groupNode := by
        have hsame : (h' ctx.nextGroupId).parentGroup =
          (entered ctx.groups op g ctx.nextGroupId ctx.nextGroupId).parentGroup :=
            hcounted.current_parent
        rw [hsame, entered_new hg.ne, (incrementOperatorCount_fields op _).2.1, hcur]
        rfl
      refine ⟨closed h' ctx.nextGroupId, ?_,
        hcounted.root hg (by omega) (inScope_spotsAll (lt_succ_self _) parts)⟩
      simp only [prelimWalker, enterOperator_root htree hcur hg hroot, hwalk, hnotTop, hroot,
        ok_bind, pure_eq_ok, Bool.or_true, if_true, map_cons]
      rw [closeGroup_eq rfl]
      simp [hparent]
  | .other parts, ctx, g, htree, hcur, hg => by
    exact prelimWalkers_spec parts ctx htree hcur hg

theorem prelimWalkers_spec : ∀ (nodes : List Node) (ctx : PolicyEagerFreeContext) {g : ℕ},
    ctx.groupTree = some t → ctx.groupNode = some g → g < ctx.nextGroupId →
    ∃ h', prelimWalkers nodes ctx = .ok ((spotsAll g ctx.nextGroupId nodes).map Spot.toVisit,
        { ctx with groups := h', nextGroupId := ctx.nextGroupId + newGroupsAll nodes }) ∧
      Counted ctx.groups h' (spotsAll g ctx.nextGroupId nodes) g ctx.nextGroupId
        (ctx.nextGroupId + newGroupsAll nodes)
  | [], ctx, g, _, _, _ => ⟨ctx.groups, rfl, Counted.nil ctx.groups g ctx.nextGroupId⟩
  | node :: nodes, ctx, g, htree, hcur, hg => by
    obtain ⟨h₁, hwalk₁, hcounted₁⟩ := prelimWalker_spec node ctx htree hcur hg
    have hg₁ : g < ctx.nextGroupId + newGroups node := by omega
    obtain ⟨h₂, hwalk₂, hcounted₂⟩ := prelimWalkers_spec nodes
      { ctx with groups := h₁, nextGroupId := ctx.nextGroupId + newGroups node } htree hcur hg₁
    rw [spotsAll, newGroupsAll, ← add_assoc]
    refine ⟨h₂, ?_, hcounted₁.append hcounted₂ hg (by omega) (by omega) (inScope_spots hg node)
      (inScope_spotsAll hg₁ nodes)⟩
    simp [prelimWalkers, hwalk₁, hwalk₂]

end

end Walk

/-! ### The whole plan -/

def topSpots (op : Operator) (extParam : Bool) (parts : List Node) : List Spot :=
  ⟨⟨op, extParam, 0⟩, none⟩ :: spotsAll 0 1 parts

/-- The groups are those of the places, and linked as these say. -/
structure GroupTree (H : ℕ → OperatorGroupNode) (S : List Spot) (numGroups queryMemKB : ℕ) :
    Prop where
  isGroup : ∀ x < numGroups, IsGroup H S x
  inScope : ∀ s ∈ S, InScope 0 1 numGroups s
  parent : ∀ s ∈ S, ∀ p, s.border = some p → (H s.group).parentGroup = some p
  covered : ∀ x, 0 < x → x < numGroups → ∃ s ∈ S, ∃ p, s.border = some p ∧ s.group = x
  root_parent : (H 0).parentGroup = none
  root_memKB : (H 0).groupMemKB = queryMemKB
  memKB : ∀ x, 0 < x → x < numGroups → (H x).groupMemKB = 0
  pos : 0 < numGroups

theorem prelimWalker_top (queryMemKB : ℕ) (op : Operator) (extParam : Bool) (parts : List Node) :
    ∃ H, prelimWalker (.plan op extParam parts)
        ⟨fun _ => createOperatorGroupNode 0 none, none, none, 0, queryMemKB⟩ =
        .ok ((topSpots op extParam parts).map Spot.toVisit,
          ⟨H, some 0, none, 1 + newGroupsAll parts, queryMemKB⟩) ∧
      GroupTree H (topSpots op extParam parts) (1 + newGroupsAll parts) queryMemKB := by
  set root : OperatorGroupNode :=
    incrementOperatorCount op ((createOperatorGroupNode 0 none).withMemKB queryMemKB)
    with hroot
  obtain ⟨hid, hparent, hmemKB, hchildren⟩ := incrementOperatorCount_fields op
    ((createOperatorGroupNode 0 none).withMemKB queryMemKB)
  have henter : enterOperator op extParam
      ⟨fun _ => createOperatorGroupNode 0 none, none, none, 0, queryMemKB⟩ =
      .ok (0, ⟨update (fun _ => createOperatorGroupNode 0 none) 0 root, some 0, some 0, 1,
        queryMemKB⟩) := by
    simp only [enterOperator, createOperatorGroupForOperator, PolicyEagerFreeContext.current,
      ok_bind, pure_eq_ok, PolicyEagerFreeContext.modify, update_self, hparent, update_idem]
    rfl
  obtain ⟨h', hwalk, hcounted⟩ := prelimWalkers_spec parts
    ⟨update (fun _ => createOperatorGroupNode 0 none) 0 root, some 0, some 0, 1,
      queryMemKB⟩ rfl rfl zero_lt_one
  simp only at hwalk hcounted
  have hin := inScope_spotsAll zero_lt_one parts
  have hkids : ∀ y, kids (topSpots op extParam parts) y = kids (spotsAll 0 1 parts) y := by
    intro y
    rw [topSpots, kids_cons, if_neg (by simp)]
  have hroot' : (h' 0).parentGroup = none := by
    rw [hcounted.current_parent, update_self, hparent]
    rfl
  refine ⟨closed h' 0, ?_, ?_, ?_, ?_, ?_, ?_, ?_, ?_, by omega⟩
  · simp only [prelimWalker, henter, hwalk, ok_bind, pure_eq_ok, Option.isNone_none, Bool.true_or,
      if_true, topSpots, map_cons]
    rw [closeGroup_eq rfl]
    simp [hroot']
  · intro x hx
    refine hcounted.isGroup_closed ?_ ?_ hin (fun y _ => hkids y) (fun mem => ?_)
      (fun y hy mem => ?_) x (zero_le x) hx
    · rw [update_self, hid]
      rfl
    · rw [update_self, hchildren]
      rfl
    · have hzero : num
          ((createOperatorGroupNode 0 none).withMemKB queryMemKB) mem = 0 := by
        cases mem <;> rfl
      rw [update_self, num_incrementOperatorCount, topSpots, count_cons, hzero]
      simp only [Spot.isIn, decide_true, Bool.true_or, and_true]
      omega
    · have hne : 0 ≠ y := by omega
      rw [topSpots, count_cons, if_neg, add_zero]
      simp [Spot.isIn, hne]
  · intro s hs
    rcases mem_cons.1 hs with rfl | hs
    · exact ⟨.inl rfl, fun p hp => by cases hp⟩
    · exact hin s hs
  · intro s hs p hp
    rw [(closed_fields h' 0 s.group).2.1]
    rcases mem_cons.1 hs with rfl | hs
    · cases hp
    · exact hcounted.parent s hs p hp
  · intro x hpos hx
    obtain ⟨s, hs, hborder⟩ := exists_border_spotsAll parts x hpos hx
    exact ⟨s, mem_cons_of_mem _ hs, hborder⟩
  · rw [(closed_fields h' 0 0).2.1, hroot']
  · rw [(closed_fields h' 0 0).2.2.1, hcounted.current_memKB, update_self, hmemKB,
      groupMemKB_withMemKB]
  · intro x hpos hx
    rw [(closed_fields h' 0 x).2.2.1]
    exact hcounted.memKB x hpos hx

end Cloudberry.MemQuota

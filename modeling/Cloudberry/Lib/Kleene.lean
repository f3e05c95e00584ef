/-
# Three-valued logic

The truth values are true, false and unknown (`none`). To take unknown for one of the two others
turns each connective into that of two-valued logic; a negation swaps what unknown is taken for.
-/

namespace Cloudberry.Kleene

/-- Both are true. -/
def and : Option Bool → Option Bool → Option Bool
  | some false, _ => some false
  | _, some false => some false
  | some true, some true => some true
  | _, _ => none

/-- One of the two is true. -/
def or : Option Bool → Option Bool → Option Bool
  | some true, _ => some true
  | _, some true => some true
  | some false, some false => some false
  | _, _ => none

def not : Option Bool → Option Bool := Option.map (!·)

variable (l : List (Option Bool))

/-- All are true. -/
def all : Option Bool := l.foldr and (some true)

/-- One of them is true. -/
def any : Option Bool := l.foldr or (some false)

theorem getD_and (a b : Option Bool) (unknown : Bool) :
    (and a b).getD unknown = (a.getD unknown && b.getD unknown) := by
  rcases a with _ | _ | _ <;> rcases b with _ | _ | _ <;> cases unknown <;> rfl

theorem getD_or (a b : Option Bool) (unknown : Bool) :
    (or a b).getD unknown = (a.getD unknown || b.getD unknown) := by
  rcases a with _ | _ | _ <;> rcases b with _ | _ | _ <;> cases unknown <;> rfl

theorem getD_not (a : Option Bool) (unknown : Bool) :
    (not a).getD unknown = !a.getD (!unknown) := by
  rcases a with _ | _ | _ <;> cases unknown <;> rfl

theorem getD_all (unknown : Bool) : (all l).getD unknown = l.all fun a => a.getD unknown := by
  induction l with
  | nil => rfl
  | cons a l ih =>
    rw [List.all_cons, ← ih]
    exact getD_and a (all l) unknown

theorem getD_any (unknown : Bool) : (any l).getD unknown = l.any fun a => a.getD unknown := by
  induction l with
  | nil => rfl
  | cons a l ih =>
    rw [List.any_cons, ← ih]
    exact getD_or a (any l) unknown

end Cloudberry.Kleene

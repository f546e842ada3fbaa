import HeaderApi.Amalgam.Basic

/-!
# The order of parts

Parts are placed in rounds: each round takes the parts whose dependencies are all placed, in the
order of their names.  A round without any such part means that some wait for each other.
-/

namespace HeaderApi.Part

/-- Whether all dependencies of a part are placed. -/
def isReady (placed : List String) (part : Part) : Bool :=
  part.deps.all fun dep => placed.contains dep

/-- Parts in the order of their names. -/
def sortByName (parts : List Part) : List Part :=
  parts.mergeSort fun a b => decide (a.name ≤ b.name)

/-- The order of the remaining parts.  Each round places at least one, so their number bounds the
number of rounds. -/
def orderFrom : Nat → List String → List Part → Except AmalgamError (List Part)
  | 0, _, _ => .ok []
  | fuel + 1, placed, remaining =>
    if remaining = [] then .ok []
    else
      let ready := sortByName (remaining.filter (isReady placed))
      if ready = [] then .error (.cycle (sortTexts (remaining.map Part.name)))
      else
        let placed := ready.map Part.name ++ placed
        (orderFrom fuel placed (remaining.filter fun part => !placed.contains part.name)).map
          (ready ++ ·)

/-- Parts such that each comes behind its dependencies, by name within a round. -/
def order (parts : List Part) : Except AmalgamError (List Part) :=
  orderFrom (parts.length + 1) [] parts

@[simp] theorem order_nil : order [] = .ok [] := rfl

end HeaderApi.Part

import TurtleGraphics.Proofs.Results
import TurtleGraphics.Run.Machine

/-!
What a node can come to as a command, with one rule for each kind of command that goes well, and how
a step can turn out that looks at the switches first.
-/

namespace TurtleGraphics

theorem twoChildren_ok {n : Node} {ts : List (Tree Node)} {a b : Tree Node}
    (h : twoChildren n ts = .ok (a, b)) : ts = [a, b] := by
  unfold twoChildren at h
  split at h
  · cases h
    rfl
  · cases h

namespace Machine

inductive Yields (procedures : Bindings (Tree Node)) (v : View) : Tree Node → Deed → Prop
  | program {n : Node} {block list : Tree Node} {noted : Bindings (Tree Node)}
    (kind : n.kind = .program) (defined : defineAll procedures list.children = .ok noted) :
    Yields procedures v (.node n [block, list]) (.define noted block)
  | block {n : Node} {ts : List (Tree Node)} (kind : n.kind = .block) :
    Yields procedures v (.node n ts) (.push (ts.map .visit))
  | assign {n : Node} {target e : Tree Node} {x : Float} (kind : n.kind = .assign)
    (name : target.value.kind = .name) (value : v.evaluate e = .ok x) :
    Yields procedures v (.node n [target, e]) (.store target.value.text x)
  | times {n : Node} {e body : Tree Node} {x : Float} (kind : n.kind = .times)
    (value : v.evaluate e = .ok x) :
    Yields procedures v (.node n [e, body]) (.push [.times (Decimal.count x) body])
  | loop {n : Node} {condition body : Tree Node} (kind : n.kind = .loop) :
    Yields procedures v (.node n [condition, body]) (.push [.loop condition body])
  | branch {n : Node} {condition body : Tree Node} {b : Bool} (kind : n.kind = .branch)
    (value : v.holds condition = .ok b) :
    Yields procedures v (.node n [condition, body]) (.push (if b then [.visit body] else []))
  | branchElse {n : Node} {condition body otherwise : Tree Node} {b : Bool}
    (kind : n.kind = .branch) (value : v.holds condition = .ok b) :
    Yields procedures v (.node n [condition, body, otherwise])
      (.push [.visit (if b then body else otherwise)])
  | call {n : Node} {ts : List (Tree Node)} {frame : Bindings Float} {body : Tree Node}
    (kind : n.kind = .call) (ready : prepare procedures v n ts = .ok (frame, body)) :
    Yields procedures v (.node n ts) (.call frame body)
  | order {n : Node} {ts : List (Tree Node)} {o : Order} (given : v.order? n ts = some (.ok o)) :
    Yields procedures v (.node n ts) (.order o)

theorem yields_of_deed {procedures : Bindings (Tree Node)} {v : View} {t : Tree Node} {d : Deed}
    (h : deed procedures v t = .ok d) : Yields procedures v t d := by
  obtain ⟨n, ts⟩ := t
  simp only [deed] at h
  split at h
  · rename_i kind
    obtain ⟨⟨block, list⟩, pair, rest⟩ := ok_of_bind h
    obtain ⟨noted, defined, done⟩ := ok_of_bind rest
    cases twoChildren_ok pair
    cases done
    exact .program kind defined
  · rename_i kind
    cases h
    exact .block kind
  · rename_i kind
    obtain ⟨⟨target, e⟩, pair, rest⟩ := ok_of_bind h
    cases twoChildren_ok pair
    dsimp only at rest
    split at rest
    · cases rest
    · rename_i name
      obtain ⟨x, value, done⟩ := ok_of_bind rest
      cases done
      exact .assign kind (Decidable.of_not_not name) value
  · rename_i kind
    obtain ⟨⟨e, body⟩, pair, rest⟩ := ok_of_bind h
    obtain ⟨x, value, done⟩ := ok_of_bind rest
    cases twoChildren_ok pair
    cases done
    exact .times kind value
  · rename_i kind
    obtain ⟨⟨condition, body⟩, pair, done⟩ := ok_of_bind h
    cases twoChildren_ok pair
    cases done
    exact .loop kind
  · rename_i kind
    split at h
    · obtain ⟨b, value, done⟩ := ok_of_bind h
      cases done
      exact .branch kind value
    · obtain ⟨b, value, done⟩ := ok_of_bind h
      cases done
      exact .branchElse kind value
    · cases h
  · rename_i kind
    obtain ⟨⟨frame, body⟩, ready, done⟩ := ok_of_bind h
    cases done
    exact .call kind ready
  · split at h
    · rename_i r given
      cases r with
      | ok o =>
        cases h
        exact .order given
      | error e => cases h
    · cases h

inductive Ready (procedures : Bindings (Tree Node)) (v : View) :
    List (Tree Node) → Bindings Float → Tree Node → Prop
  | intro {name arguments own parameters body : Tree Node} {d h : Node} {frame : Bindings Float}
    (found : procedures.get? name.value.text = some (.node d [.node h [own, parameters], body]))
    (counted : parameters.children.length = arguments.children.length)
    (bound : bind v .empty parameters.children arguments.children = .ok frame) :
    Ready procedures v [name, arguments] frame body

theorem ready_of_prepare {procedures : Bindings (Tree Node)} {v : View} {n : Node}
    {ts : List (Tree Node)} {frame : Bindings Float} {body : Tree Node}
    (h : prepare procedures v n ts = .ok (frame, body)) : Ready procedures v ts frame body := by
  obtain ⟨⟨name, arguments⟩, pair, afterPair⟩ := ok_of_bind h
  cases twoChildren_ok pair
  cases found : procedures.get? name.value.text with
  | none =>
    simp only [found] at afterPair
    cases afterPair
  | some t =>
    obtain ⟨d, ds⟩ := t
    simp only [found] at afterPair
    obtain ⟨⟨⟨h, hs⟩, body⟩, halves, afterHalves⟩ := ok_of_bind afterPair
    obtain ⟨⟨own, parameters⟩, header, afterHeader⟩ := ok_of_bind afterHalves
    cases twoChildren_ok halves
    cases twoChildren_ok header
    split at afterHeader
    · cases afterHeader
    · rename_i counted
      obtain ⟨frame, bound, done⟩ := ok_of_bind afterHeader
      cases done
      exact .intro found (Decidable.of_not_not counted) bound

variable {ω : Type} [Host ω]

inductive Turns (m : Machine ω) (find : Bindings (Tree Node) → View → Except RuntimeError Deed) :
    Progress ω → Prop
  | stopped {host : ω} (polled : Host.poll m.host = (true, host)) :
    Turns m find (.ended .stopped { m with host })
  | refused {host : ω} {e : RuntimeError} (polled : Host.poll m.host = (false, host))
    (found : find m.procedures { m with host }.view = .error e) :
    Turns m find (.ended (.failed e) { m with host })
  | carried {host : ω} {d : Deed} (polled : Host.poll m.host = (false, host))
    (found : find m.procedures { m with host }.view = .ok d) :
    Turns m find ({ m with host }.carryOut d)

theorem proceed_turns (m : Machine ω)
    (find : Bindings (Tree Node) → View → Except RuntimeError Deed) :
    Turns m find (m.proceed find) := by
  unfold proceed
  rcases polled : Host.poll m.host with ⟨_ | _, host⟩
  · cases found : find m.procedures { m with host }.view with
    | ok d =>
      simp only [attempt, found]
      exact .carried polled found
    | error e =>
      simp only [attempt, found]
      exact .refused polled found
  · exact .stopped polled

inductive Awaits (m : Machine ω) : Progress ω → Prop
  | going {host : ω} (settled : Host.settle m.host = (.go, host)) :
    Awaits m (.going { m with host })
  | stopped {host : ω} (settled : Host.settle m.host = (.stop, host)) :
    Awaits m (.ended .stopped { m with host })
  | held {host : ω} (settled : Host.settle m.host = (.held, host)) :
    Awaits m (.ended .held { m with host })

theorem settle_awaits (m : Machine ω) : m.Awaits m.settle := by
  unfold settle
  rcases settled : Host.settle m.host with ⟨_ | _ | _, host⟩
  · exact .going settled
  · exact .stopped settled
  · exact .held settled

end Machine

end TurtleGraphics

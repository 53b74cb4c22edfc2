import TurtleGraphics.Proofs.Forest.Refusal

/-!
Edits worked in place, one write after another. A write to a node that is not there is an error, and
what was written before stays written. In a forest that came about by edits no such error ever comes
after a write: an edit makes its whole change, or it is refused for a reason found beforehand and
leaves the forest as it was.
-/

namespace TurtleGraphics.Forest

variable {α β γ : Type} {f g : Forest α}

/-- Work on a forest in place. -/
abbrev Work (α β : Type) := EStateM Error (Forest α) β

namespace Work

def look (see : Forest α → Except Error β) : Work α β := fun f =>
  match see f with
  | .ok b => .ok b f
  | .error e => .error e f

def rewrite (h : Nat) (change : Entry α → Entry α) : Work α Unit := do
  let _ ← look (·.entry h)
  modify fun f => ⟨f.entries.modify h change⟩

def link (parent child : Nat) (place : List Nat → List Nat) : Work α Unit := do
  rewrite parent fun e => { e with children := place e.children }
  rewrite child fun e => { e with parent := some parent }

def linkAll (parent : Nat) : List Nat → Work α Unit
  | [] => return ()
  | child :: rest => do
    link parent child (· ++ [child])
    linkAll parent rest

def leaf (value : α) : Work α Nat :=
  modifyGet (·.leaf value)

def node (value : α) (children : List Nat) : Work α Nat := do
  look (·.checkChildren none [] children)
  let h ← leaf value
  linkAll h children
  return h

def addChildren (parent : Nat) (children : List Nat) : Work α Unit := do
  look (·.checkChildren (some parent) [] children)
  linkAll parent children

def insertChild (parent index child : Nat) : Work α Unit := do
  let e ← look (·.entry parent)
  if index > e.children.length then throw (.indexOutOfBounds index e.children.length)
  look (·.checkChildren (some parent) [] [child])
  link parent child (·.insertIdx index child)

def removeChild (parent index : Nat) : Work α Nat := do
  let e ← look (·.entry parent)
  match e.children[index]? with
  | none => throw (.indexOutOfBounds index e.children.length)
  | some child =>
    rewrite parent fun e => { e with children := e.children.eraseIdx index }
    rewrite child fun e => { e with parent := none }
    return child

def setValue (h : Nat) (value : α) : Work α α := do
  let e ← look (·.entry h)
  rewrite h fun e => { e with value }
  return e.value

end Work

def Edit.work : Edit α → Work α (Edit.Answer α)
  | .leaf v => .handle <$> Work.leaf v
  | .node v cs => .handle <$> Work.node v cs
  | .addChild p c => (fun _ => .done) <$> Work.addChildren p [c]
  | .insertChild p i c => (fun _ => .done) <$> Work.insertChild p i c
  | .addChildren p cs => (fun _ => .done) <$> Work.addChildren p cs
  | .removeChild p i => .handle <$> Work.removeChild p i
  | .setValue h v => .value <$> Work.setValue h v

/-- An answer with the forest it leaves, or an error that leaves the forest as it was. -/
def concluded (f : Forest α) : Except Error (β × Forest α) → EStateM.Result Error (Forest α) β
  | .ok (b, g) => .ok b g
  | .error e => .error e f

namespace Work

theorem look_bind (see : Forest α → Except Error β) (k : β → Work α γ) (f : Forest α) :
    (look see >>= k) f =
      match see f with
      | .ok b => k b f
      | .error e => .error e f := by
  change EStateM.bind (look see) k f = _
  unfold EStateM.bind look
  cases see f <;> rfl

theorem bind_of_ok {w : Work α β} {k : β → Work α γ} {b : β} (done : w f = .ok b g) :
    (w >>= k) f = k b g := by
  change EStateM.bind w k f = _
  unfold EStateM.bind
  rw [done]

theorem bind_of_error {w : Work α β} {err : Error} (failed : w f = .error err g)
    (k : β → Work α γ) : (w >>= k) f = .error err g := by
  change EStateM.bind w k f = _
  unfold EStateM.bind
  rw [failed]

theorem rewrite_ok {h : Nat} (inside : h < f.size) (change : Entry α → Entry α) :
    rewrite h change f = .ok () ⟨f.entries.modify h change⟩ := by
  obtain ⟨e, here⟩ := entry_of_lt inside
  rw [rewrite, look_bind, here]
  rfl

theorem rewrite_error {h : Nat} {err : Error} (missing : f.entry h = .error err)
    (change : Entry α → Entry α) : rewrite h change f = .error err f := by
  rw [rewrite, look_bind, missing]

theorem link_ok {p c : Nat} (parent : p < f.size) (child : c < f.size)
    (place : List Nat → List Nat) : link p c place f = .ok () (f.link p c place) := by
  rw [link, bind_of_ok (rewrite_ok parent _), rewrite_ok]
  · rfl
  · simpa [Forest.size] using child

theorem linkAll_ok {p : Nat} {cs : List Nat} (parent : p < f.size)
    (children : ∀ c ∈ cs, c < f.size) : linkAll p cs f = .ok () (f.appendAll p cs) := by
  induction cs generalizing f with
  | nil => rfl
  | cons c cs ih =>
    have first := link_ok parent (children c (by simp)) (· ++ [c])
    have size := size_link f p c (· ++ [c])
    rw [linkAll, bind_of_ok first]
    apply ih
    · rwa [size]
    · intro d member
      rw [size]
      exact children d (by simp [member])

theorem node_eq (f : Forest α) (v : α) (cs : List Nat) :
    node v cs f = concluded f (f.node v cs) := by
  unfold Forest.node
  rw [node, look_bind]
  cases checked : f.checkChildren none [] cs with
  | error e => rfl
  | ok u =>
    have made : leaf v f = .ok f.size (f.leaf v).2 := rfl
    have size : (f.leaf v).2.size = f.size + 1 := by simp [Forest.leaf, Forest.size]
    have linked : linkAll f.size cs (f.leaf v).2 = .ok () ((f.leaf v).2.appendAll f.size cs) := by
      apply linkAll_ok (by omega)
      intro c member
      have old := ((checked_of_checkChildren checked).2 c member).1.child
      omega
    dsimp only
    rw [bind_of_ok made, bind_of_ok linked]
    rfl

theorem addChildren_eq (f : Forest α) (p : Nat) (cs : List Nat) :
    addChildren p cs f = concluded f ((f.addChildren p cs).map ((), ·)) := by
  unfold Forest.addChildren
  rw [addChildren, look_bind]
  cases checked : f.checkChildren (some p) [] cs with
  | error e => rfl
  | ok u =>
    cases cs with
    | nil => rfl
    | cons c cs =>
      have children : ∀ d ∈ c :: cs, d < f.size :=
        fun d member => ((checked_of_checkChildren checked).2 d member).1.child
      dsimp only
      cases found : f.entry p with
      | ok e =>
        rw [linkAll_ok (lt_size_of_entry found).2 children]
        rfl
      | error e =>
        have stuck : link p c (· ++ [c]) f = .error e f := bind_of_error (rewrite_error found _) _
        rw [linkAll, bind_of_error stuck]
        rfl

theorem insertChild_eq (f : Forest α) (p i c : Nat) :
    insertChild p i c f = concluded f ((f.insertChild p i c).map ((), ·)) := by
  unfold Forest.insertChild
  rw [insertChild, look_bind]
  cases found : f.entry p with
  | error e => rfl
  | ok e =>
    dsimp only
    by_cases far : i > e.children.length
    · simp only [bind, Except.bind, if_pos far]
      rfl
    · simp only [if_neg far]
      change (look (·.checkChildren (some p) [] [c]) >>= fun _ => link p c (·.insertIdx i c)) f = _
      rw [look_bind]
      cases checked : f.checkChildren (some p) [] [c] with
      | error e =>
        simp only [bind, Except.bind, if_neg far]
        rfl
      | ok u =>
        have child := ((checked_of_checkChildren checked).2 c (by simp)).1.child
        dsimp only
        rw [link_ok (lt_size_of_entry found).2 child]
        simp only [bind, Except.bind, if_neg far]
        rfl

theorem removeChild_eq (sound : f.Sound) (p i : Nat) :
    removeChild p i f = concluded f (f.removeChild p i) := by
  unfold Forest.removeChild
  rw [removeChild, look_bind]
  cases found : f.entry p with
  | error e => rfl
  | ok e =>
    obtain ⟨entry, parent⟩ := lt_size_of_entry found
    cases there : e.children[i]? with
    | none =>
      simp only [bind, Except.bind, there]
      rfl
    | some c =>
      have child : c < f.size := by
        have listed : c ∈ f.below p := by
          rw [below_of_entry entry]
          exact List.mem_of_getElem? there
        exact lt_size_of_above ((sound.linked p c).mp listed)
      simp only [there, bind_of_ok (rewrite_ok parent _)]
      rw [bind_of_ok (rewrite_ok (by simpa [Forest.size] using child) _)]
      simp only [bind, Except.bind, there]
      rfl

theorem setValue_eq (f : Forest α) (h : Nat) (v : α) :
    setValue h v f = concluded f (f.setValue h v) := by
  unfold Forest.setValue
  rw [setValue, look_bind]
  cases found : f.entry h with
  | error e => rfl
  | ok e =>
    dsimp only
    rw [bind_of_ok (rewrite_ok (lt_size_of_entry found).2 _)]
    rfl

theorem map_eq {w : Work α β} {r : Except Error (β × Forest α)} (done : w f = concluded f r)
    (answer : β → γ) : (answer <$> w) f = concluded f (r.map fun (b, g) => (answer b, g)) := by
  change EStateM.map answer w f = _
  unfold EStateM.map
  rw [done]
  cases r <;> rfl

end Work

/-- In a sound forest the work in place comes to what the edit comes to. -/
theorem Sound.work_eq (sound : f.Sound) (e : Edit α) : e.work f = concluded f (f.apply e) := by
  have same (r : Except Error (Forest α)) :
      (r.map ((), ·)).map (fun (_, g) => (Edit.Answer.done (α := α), g)) = r.map (.done, ·) := by
    cases r <;> rfl
  cases e with
  | leaf v => rfl
  | node v cs => exact Work.map_eq (Work.node_eq f v cs) _
  | addChild p c => exact (Work.map_eq (Work.addChildren_eq f p [c]) _).trans (congrArg _ (same _))
  | insertChild p i c =>
    exact (Work.map_eq (Work.insertChild_eq f p i c) _).trans (congrArg _ (same _))
  | addChildren p cs =>
    exact (Work.map_eq (Work.addChildren_eq f p cs) _).trans (congrArg _ (same _))
  | removeChild p i => exact Work.map_eq (Work.removeChild_eq sound p i) _
  | setValue h v => exact Work.map_eq (Work.setValue_eq f h v) _

end TurtleGraphics.Forest

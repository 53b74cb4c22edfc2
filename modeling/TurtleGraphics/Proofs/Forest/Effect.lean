import TurtleGraphics.Proofs.Forest.InPlace
import TurtleGraphics.Proofs.Forest.Roots

/-!
What an edit changes, and for what reason it is refused. A link is changed at both of its ends and
all other links and values stay; a refused edit has changed nothing.
-/

namespace TurtleGraphics.Forest

variable {α : Type} {f g : Forest α}

structure Made (f g : Forest α) (v : α) (cs : List Nat) : Prop where
  size : g.size = f.size + 1
  value : g.value f.size = .ok v ∧ ∀ h < f.size, g.value h = f.value h
  below : ∀ h, g.below h = if h = f.size then cs else f.below h
  above : ∀ h, g.above h = if h ∈ cs then some f.size else f.above h

structure Relinked (f g : Forest α) (p : Nat) (list cs : List Nat) (parent : Option Nat) :
    Prop where
  size : g.size = f.size
  value : ∀ h, g.value h = f.value h
  below : ∀ h, g.below h = if h = p then list else f.below h
  above : ∀ h, g.above h = if h ∈ cs then parent else f.above h

structure Revalued (f g : Forest α) (h : Nat) (v : α) : Prop where
  size : g.size = f.size
  value : ∀ k, g.value k = if k = h then .ok v else f.value k
  below : ∀ k, g.below k = f.below k
  above : ∀ k, g.above k = f.above k

inductive Changed (f : Forest α) : Edit α → Edit.Answer α → Forest α → Prop
  | leaf {v : α} {g : Forest α} (made : Made f g v []) : Changed f (.leaf v) (.handle f.size) g
  | node {v : α} {cs : List Nat} {g : Forest α} (made : Made f g v cs) :
    Changed f (.node v cs) (.handle f.size) g
  | addChild {p c : Nat} {g : Forest α}
    (relinked : Relinked f g p (f.below p ++ [c]) [c] (some p)) :
    Changed f (.addChild p c) .done g
  | insertChild {p i c : Nat} {g : Forest α} (near : i ≤ (f.below p).length)
    (relinked : Relinked f g p ((f.below p).insertIdx i c) [c] (some p)) :
    Changed f (.insertChild p i c) .done g
  | addChildren {p : Nat} {cs : List Nat} {g : Forest α}
    (relinked : Relinked f g p (f.below p ++ cs) cs (some p)) :
    Changed f (.addChildren p cs) .done g
  | removeChild {p i c : Nat} {g : Forest α} (there : (f.below p)[i]? = some c)
    (relinked : Relinked f g p ((f.below p).eraseIdx i) [c] none) :
    Changed f (.removeChild p i) (.handle c) g
  | setValue {h : Nat} {v old : α} {g : Forest α} (found : f.value h = .ok old)
    (revalued : Revalued f g h v) : Changed f (.setValue h v) (.value old) g

inductive Refused (f : Forest α) : Edit α → Error → Prop
  | node {v : α} {cs : List Nat} {err : Error} (first : f.FirstObjection none cs err) :
    Refused f (.node v cs) err
  | addChild {p c : Nat} {err : Error} (first : f.FirstObjection (some p) [c] err) :
    Refused f (.addChild p c) err
  | insertFar {p i c : Nat} (far : (f.below p).length < i) :
    Refused f (.insertChild p i c) (.indexOutOfBounds i (f.below p).length)
  | insertChild {p i c : Nat} {err : Error} (near : i ≤ (f.below p).length)
    (first : f.FirstObjection (some p) [c] err) : Refused f (.insertChild p i c) err
  | addChildren {p : Nat} {cs : List Nat} {err : Error}
    (first : f.FirstObjection (some p) cs err) : Refused f (.addChildren p cs) err
  | removeFar {p i : Nat} (far : (f.below p).length ≤ i) :
    Refused f (.removeChild p i) (.indexOutOfBounds i (f.below p).length)

def Edit.handles : Edit α → List Nat
  | .leaf _ => []
  | .node _ cs => cs
  | .addChild p c | .insertChild p _ c => [p, c]
  | .addChildren p cs => p :: cs
  | .removeChild p _ => [p]
  | .setValue h _ => [h]

theorem value_congr (size : g.size = f.size) {h : Nat}
    (same : (g.entries[h]?).map (·.value) = (f.entries[h]?).map (·.value)) :
    g.value h = f.value h := by
  unfold value entry
  cases old : f.entries[h]? with
  | none =>
    rw [old, Option.map_none, Option.map_eq_none_iff] at same
    simp [same, size, Except.map]
  | some e =>
    rw [old, Option.map_some, Option.map_eq_some_iff] at same
    obtain ⟨d, new, equal⟩ := same
    simp [new, equal, Except.map]

theorem relinked_refl (f : Forest α) (p : Nat) (parent : Option Nat) :
    Relinked f f p (f.below p) [] parent where
  size := rfl
  value _ := rfl
  below h := by
    split
    · rename_i same
      rw [same]
    · rfl
  above h := by simp

theorem Relinked.trans {k : Forest α} {p : Nat} {list list' cs ds : List Nat} {parent : Option Nat}
    (first : Relinked f g p list cs parent) (second : Relinked g k p list' ds parent) :
    Relinked f k p list' (cs ++ ds) parent where
  size := second.size.trans first.size
  value h := (second.value h).trans (first.value h)
  below h := by
    rw [second.below, first.below]
    by_cases same : h = p <;> simp [same]
  above h := by
    rw [second.above, first.above]
    by_cases early : h ∈ cs <;> by_cases late : h ∈ ds <;> simp [early, late]

theorem relinked_link {p c : Nat} (parent : p < f.size) (child : c < f.size)
    (place : List Nat → List Nat) :
    Relinked f (f.link p c place) p (place (f.below p)) [c] (some p) where
  size := size_link f p c place
  value h := by
    apply value_congr (size_link f p c place)
    rw [entries_link, Option.map_map]
    rfl
  below := below_link parent place
  above h := by
    rw [above_link child]
    simp

theorem relinked_appendAll {p : Nat} {cs : List Nat} (parent : p < f.size)
    (children : ∀ c ∈ cs, c < f.size) :
    Relinked f (f.appendAll p cs) p (f.below p ++ cs) cs (some p) := by
  induction cs generalizing f with
  | nil =>
    rw [List.append_nil]
    exact relinked_refl f p (some p)
  | cons c cs ih =>
    have first := relinked_link parent (children c (by simp)) (· ++ [c])
    have list : (f.append p c).below p ++ cs = f.below p ++ c :: cs := by
      simp [Forest.append, first.below p]
    have rest : Relinked (f.append p c) ((f.append p c).appendAll p cs) p
        ((f.append p c).below p ++ cs) cs (some p) := by
      apply ih
      · exact first.size.symm ▸ parent
      · intro d member
        exact first.size.symm ▸ children d (by simp [member])
    rw [list] at rest
    exact first.trans rest

theorem made_leaf (f : Forest α) (v : α) : Made f (f.leaf v).2 v [] where
  size := size_leaf f v
  value := by
    constructor
    · simp [Forest.value, Forest.entry, Forest.leaf, Forest.size, Except.map]
    · intro h old
      have there : f.entries[h]? = some f.entries[h] := Array.getElem?_eq_getElem old
      simp [Forest.value, Forest.entry, entries_leaf old, there]
  below h := by
    rw [below_leaf]
    split
    · rename_i same
      simp [below, same, Forest.size]
    · rfl
  above h := by
    rw [above_leaf]
    simp

theorem Made.attach {k : Forest α} {v : α} {cs : List Nat} (made : Made f g v [])
    (relinked : Relinked g k f.size cs cs (some f.size)) : Made f k v cs where
  size := relinked.size.trans made.size
  value := by
    constructor
    · exact (relinked.value _).trans made.value.1
    · intro h old
      exact (relinked.value h).trans (made.value.2 h old)
  below h := by
    rw [relinked.below, made.below]
    by_cases new : h = f.size <;> simp [new]
  above h := by
    rw [relinked.above, made.above]
    simp

theorem Made.of_node {v : α} {cs : List Nat} {h : Nat} (done : f.node v cs = .ok (h, g)) :
    h = f.size ∧ Made f g v cs := by
  obtain ⟨_, checked, done⟩ := ok_of_bind done
  have made := made_leaf f v
  have top : (f.leaf v).2.below f.size = [] := by simpa using made.below f.size
  have relinked : Relinked (f.leaf v).2 ((f.leaf v).2.appendAll f.size cs) f.size
      ((f.leaf v).2.below f.size ++ cs) cs (some f.size) := by
    apply relinked_appendAll
    · rw [made.size]
      exact Nat.lt_succ_self f.size
    · intro c member
      rw [made.size]
      exact Nat.lt_succ_of_lt ((checked_of_checkChildren checked).2 c member).1.child
  rw [top, List.nil_append] at relinked
  cases done
  exact ⟨rfl, made.attach relinked⟩

theorem Relinked.of_addChildren {p : Nat} {cs : List Nat} (done : f.addChildren p cs = .ok g) :
    Relinked f g p (f.below p ++ cs) cs (some p) := by
  obtain ⟨_, checked, done⟩ := ok_of_bind done
  cases cs with
  | nil =>
    cases done
    rw [List.append_nil]
    exact relinked_refl f p (some p)
  | cons c cs =>
    obtain ⟨e, found, done⟩ := ok_of_bind done
    cases done
    apply relinked_appendAll (lt_size_of_entry found).2
    exact fun d member => ((checked_of_checkChildren checked).2 d member).1.child

theorem Relinked.of_insertChild {p i c : Nat} (done : f.insertChild p i c = .ok g) :
    i ≤ (f.below p).length ∧ Relinked f g p ((f.below p).insertIdx i c) [c] (some p) := by
  obtain ⟨e, found, done⟩ := ok_of_bind done
  obtain ⟨entry, inside⟩ := lt_size_of_entry found
  split at done
  · cases done
  · rename_i near
    obtain ⟨_, checked, done⟩ := ok_of_bind done
    cases done
    have child := ((checked_of_checkChildren checked).2 c (by simp)).1.child
    refine ⟨?_, relinked_link inside child (·.insertIdx i c)⟩
    rw [below_of_entry entry]
    omega

theorem Relinked.of_removeChild {p i c : Nat} (done : f.removeChild p i = .ok (c, g)) :
    (f.below p)[i]? = some c ∧ Relinked f g p ((f.below p).eraseIdx i) [c] none := by
  obtain ⟨there, up, down⟩ := links_of_removeChild done
  obtain ⟨e, found, done⟩ := ok_of_bind done
  split at done
  · cases done
  · cases done
    refine ⟨there, ⟨by simp [Forest.size], ?_, down, ?_⟩⟩
    · intro h
      apply value_congr (by simp [Forest.size])
      simp only [Array.getElem?_modify]
      cases f.entries[h]? <;> grind
    · intro h
      rw [up]
      simp

theorem Revalued.of_setValue {h : Nat} {v old : α} (done : f.setValue h v = .ok (old, g)) :
    f.value h = .ok old ∧ Revalued f g h v := by
  obtain ⟨above, below⟩ := links_of_setValue done
  obtain ⟨e, found, done⟩ := ok_of_bind done
  cases done
  have entry := (lt_size_of_entry found).1
  have size : (Forest.mk (f.entries.modify h fun e => { e with value := v })).size = f.size := by
    simp [Forest.size]
  refine ⟨by simp [Forest.value, found, Except.map], size, ?_, below, above⟩
  intro k
  by_cases here : k = h
  · subst here
    simp [Forest.value, Forest.entry, entry, Array.getElem?_modify, Except.map]
  · rw [if_neg here]
    apply value_congr size
    simp [Array.getElem?_modify, Ne.symm here]

/-- An edit that is done changes what it is for, and nothing else. -/
theorem changed_of_apply {e : Edit α} {answer : Edit.Answer α}
    (done : f.apply e = .ok (answer, g)) : f.Changed e answer g := by
  cases e with
  | leaf v =>
    cases done
    exact .leaf (made_leaf f v)
  | node v cs =>
    obtain ⟨⟨h, k⟩, attached, same⟩ := ok_of_map done
    cases same
    obtain ⟨rfl, made⟩ := Made.of_node attached
    exact .node made
  | addChild p c =>
    obtain ⟨k, added, same⟩ := ok_of_map done
    cases same
    exact .addChild (.of_addChildren added)
  | insertChild p i c =>
    obtain ⟨k, inserted, same⟩ := ok_of_map done
    cases same
    obtain ⟨near, relinked⟩ := Relinked.of_insertChild inserted
    exact .insertChild near relinked
  | addChildren p cs =>
    obtain ⟨k, added, same⟩ := ok_of_map done
    cases same
    exact .addChildren (.of_addChildren added)
  | removeChild p i =>
    obtain ⟨⟨c, k⟩, removed, same⟩ := ok_of_map done
    cases same
    obtain ⟨there, relinked⟩ := Relinked.of_removeChild removed
    exact .removeChild there relinked
  | setValue h v =>
    obtain ⟨⟨old, k⟩, set, same⟩ := ok_of_map done
    cases same
    obtain ⟨found, revalued⟩ := Revalued.of_setValue set
    exact .setValue found revalued

theorem Sound.node_eq_error_iff (sound : f.Sound) {v : α} {cs : List Nat} {err : Error}
    (inside : ∀ c ∈ cs, c < f.size) : f.node v cs = .error err ↔ f.FirstObjection none cs err := by
  rw [← sound.checkChildren_eq_error_iff inside]
  change (f.checkChildren none [] cs >>= fun _ => _) = .error err ↔ _
  exact bind_ok_eq_error_iff _

theorem Sound.addChildren_eq_error_iff (sound : f.Sound) {p : Nat} {cs : List Nat} {err : Error}
    (parent : p < f.size) (inside : ∀ c ∈ cs, c < f.size) :
    f.addChildren p cs = .error err ↔ f.FirstObjection (some p) cs err := by
  rw [← sound.checkChildren_eq_error_iff inside]
  obtain ⟨e, here⟩ := entry_of_lt parent
  have whole : f.addChildren p cs =
      f.checkChildren (some p) [] cs >>= fun _ => .ok (f.appendAll p cs) := by
    unfold Forest.addChildren
    rw [here]
    cases cs <;> rfl
  rw [whole]
  exact bind_ok_eq_error_iff _

theorem Sound.insertChild_eq_error_iff (sound : f.Sound) {p i c : Nat} {err : Error}
    (parent : p < f.size) (child : c < f.size) :
    f.insertChild p i c = .error err ↔
      (f.below p).length < i ∧ err = .indexOutOfBounds i (f.below p).length ∨
      i ≤ (f.below p).length ∧ f.FirstObjection (some p) [c] err := by
  rw [← sound.checkChildren_eq_error_iff (by simpa using child)]
  obtain ⟨e, here⟩ := entry_of_lt parent
  rw [below_of_entry (lt_size_of_entry here).1]
  have whole : f.insertChild p i c =
      if i > e.children.length then .error (.indexOutOfBounds i e.children.length)
      else f.checkChildren (some p) [] [c] >>= fun _ => .ok (f.link p c (·.insertIdx i c)) := by
    unfold Forest.insertChild
    rw [here]
    rfl
  rw [whole]
  by_cases far : i > e.children.length
  · rw [if_pos far]
    constructor
    · intro refused
      cases refused
      exact .inl ⟨far, rfl⟩
    · rintro (⟨-, rfl⟩ | ⟨near, -⟩)
      · rfl
      · exact absurd far (Nat.not_lt.mpr near)
  · rw [if_neg far, bind_ok_eq_error_iff]
    constructor
    · intro refused
      exact .inr ⟨Nat.not_lt.mp far, refused⟩
    · rintro (⟨beyond, -⟩ | ⟨-, refused⟩)
      · exact absurd beyond far
      · exact refused

theorem removeChild_eq_error_iff {p i : Nat} {err : Error} (parent : p < f.size) :
    f.removeChild p i = .error err ↔
      (f.below p).length ≤ i ∧ err = .indexOutOfBounds i (f.below p).length := by
  obtain ⟨e, here⟩ := entry_of_lt parent
  rw [below_of_entry (lt_size_of_entry here).1]
  unfold Forest.removeChild
  simp only [here, bind, Except.bind]
  cases there : e.children[i]? with
  | none =>
    have far := List.getElem?_eq_none_iff.mp there
    constructor
    · intro refused
      cases refused
      exact ⟨far, rfl⟩
    · rintro ⟨-, rfl⟩
      rfl
  | some c =>
    have near := (List.getElem?_eq_some_iff.mp there).1
    constructor
    · intro refused
      cases refused
    · rintro ⟨far, -⟩
      exact absurd near (Nat.not_lt.mpr far)

/-- An edit of nodes that are there is refused for one of these reasons and for no other. -/
theorem Sound.apply_eq_error_iff (sound : f.Sound) {e : Edit α}
    (inside : ∀ h ∈ e.handles, h < f.size) {err : Error} :
    f.apply e = .error err ↔ f.Refused e err := by
  cases e with
  | leaf v =>
    constructor
    · intro refused
      cases refused
    · intro refused
      cases refused
  | node v cs =>
    have children : ∀ c ∈ cs, c < f.size := inside
    change (f.node v cs).map _ = .error err ↔ _
    rw [map_eq_error_iff, sound.node_eq_error_iff children]
    exact ⟨.node, fun | .node first => first⟩
  | addChild p c =>
    change (f.addChildren p [c]).map _ = .error err ↔ _
    rw [map_eq_error_iff, sound.addChildren_eq_error_iff (inside p (by simp [Edit.handles]))
      fun d member => inside d (List.mem_cons_of_mem p member)]
    exact ⟨.addChild, fun | .addChild first => first⟩
  | insertChild p i c =>
    change (f.insertChild p i c).map _ = .error err ↔ _
    rw [map_eq_error_iff, sound.insertChild_eq_error_iff (inside p (by simp [Edit.handles]))
      (inside c (by simp [Edit.handles]))]
    constructor
    · rintro (⟨far, rfl⟩ | ⟨near, first⟩)
      · exact .insertFar far
      · exact .insertChild near first
    · intro refused
      cases refused with
      | insertFar far => exact .inl ⟨far, rfl⟩
      | insertChild near first => exact .inr ⟨near, first⟩
  | addChildren p cs =>
    change (f.addChildren p cs).map _ = .error err ↔ _
    rw [map_eq_error_iff, sound.addChildren_eq_error_iff (inside p (by simp [Edit.handles]))
      fun d member => inside d (List.mem_cons_of_mem p member)]
    exact ⟨.addChildren, fun | .addChildren first => first⟩
  | removeChild p i =>
    change (f.removeChild p i).map _ = .error err ↔ _
    rw [map_eq_error_iff, removeChild_eq_error_iff (inside p (by simp [Edit.handles]))]
    constructor
    · rintro ⟨far, rfl⟩
      exact .removeFar far
    · intro refused
      cases refused with
      | removeFar far => exact ⟨far, rfl⟩
  | setValue h v =>
    obtain ⟨e, here⟩ := entry_of_lt (inside h (by simp [Edit.handles]))
    have done : f.apply (.setValue h v) =
        .ok (.value e.value, ⟨f.entries.modify h fun e => { e with value := v }⟩) := by
      change (f.setValue h v).map _ = _
      unfold Forest.setValue
      rw [here]
      rfl
    rw [done]
    constructor
    · intro refused
      cases refused
    · intro refused
      cases refused

structure Exact (f : Forest α) (e : Edit α) : Prop where
  agrees : e.work f = concluded f (f.apply e)
  untouched : ∀ err g, e.work f = .error err g → g = f
  changed : ∀ answer g, e.work f = .ok answer g → f.Changed e answer g
  refused : (∀ h ∈ e.handles, h < f.size) →
    ∀ err, (∃ g, e.work f = .error err g) ↔ f.Refused e err

theorem Sound.exact (sound : f.Sound) (e : Edit α) : f.Exact e := by
  have agrees := sound.work_eq e
  constructor
  · exact agrees
  · intro err g failed
    rw [agrees] at failed
    cases came : f.apply e with
    | ok done =>
      rw [came] at failed
      cases failed
    | error other =>
      rw [came] at failed
      cases failed
      rfl
  · intro answer g done
    rw [agrees] at done
    cases came : f.apply e with
    | ok result =>
      rw [came] at done
      cases done
      exact changed_of_apply came
    | error other =>
      rw [came] at done
      cases done
  · intro inside err
    rw [← sound.apply_eq_error_iff inside, agrees]
    cases f.apply e with
    | ok done => simp [concluded]
    | error other => simp [concluded]

/-- Every edit of whatever forest edits have led to. -/
theorem exact_afterAll (es : List (Edit α)) (e : Edit α) : (afterAll empty es).Exact e :=
  (sound_empty.afterAll es).exact e

end TurtleGraphics.Forest

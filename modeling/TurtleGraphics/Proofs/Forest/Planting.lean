import TurtleGraphics.Proofs.Forest.Census
import TurtleGraphics.Proofs.Forest.Effect
import TurtleGraphics.Tree.Description

/-!
Planting a tree. It is never refused. The forest planted from nothing holds that tree and no other
node, and every node is made before its parent, the root last.
-/

namespace TurtleGraphics.Forest

variable {α : Type} {f g k : Forest α}

/-- Every node was made before its parent. -/
def Rising (f : Forest α) : Prop :=
  ∀ c p, f.above c = some p → c < p

theorem rising_empty : (empty : Forest α).Rising := by
  intro c p parent
  simp [above, empty] at parent

theorem Rising.node (rising : f.Rising) {v : α} {cs : List Nat} {h : Nat}
    (done : f.node v cs = .ok (h, g)) : g.Rising := by
  obtain ⟨-, made⟩ := Made.of_node done
  intro c p parent
  rw [made.above] at parent
  split at parent
  · rename_i child
    cases parent
    obtain ⟨_, checked, -⟩ := ok_of_bind done
    exact ((checked_of_checkChildren checked).2 c child).1.child
  · exact rising c p parent

structure Planted (f g : Forest α) (made : List (Nat × Tree α)) : Prop where
  grown : Grown f g made
  sound : g.Sound
  rising : f.Rising → g.Rising

theorem Planted.trans {xs ys : List (Nat × Tree α)} (left : Planted f g xs)
    (right : Planted g k ys) : Planted f k (ys ++ xs) :=
  ⟨left.grown.trans right.grown, right.sound, right.rising ∘ left.rising⟩

theorem Planted.perm {xs ys : List (Nat × Tree α)} (planted : Planted f g xs) (same : xs.Perm ys) :
    Planted f g ys :=
  ⟨planted.grown.perm same, planted.sound, planted.rising⟩

theorem Planted.node (v : α) {made : List (Nat × Tree α)} (planted : Planted f g made) :
    ∃ h k, g.node v (made.map Prod.fst) = .ok (h, k) ∧
      Planted f k [(h, .node v (made.map Prod.snd))] ∧ h + 1 = k.size := by
  have grown : Grown f g (made ++ []) := by
    rw [List.append_nil]
    exact planted.grown
  obtain ⟨h, k, done, grown⟩ := grown.node v
  obtain ⟨rfl, made⟩ := Made.of_node done
  have rising : f.Rising → k.Rising := fun low => (planted.rising low).node done
  exact ⟨g.size, k, done, ⟨grown, planted.sound.node done, rising⟩, made.size.symm⟩

mutual

theorem Sound.exists_plant {f : Forest α} (sound : f.Sound) :
    (t : Tree α) → ∃ h g, f.plant t = .ok (h, g) ∧ Planted f g [(h, t)] ∧ h + 1 = g.size
  | .node v ts => by
    obtain ⟨made, g, rfl, below, planted⟩ := sound.exists_plantAll ts
    obtain ⟨h, k, done, whole, last⟩ := planted.node v
    refine ⟨h, k, ?_, whole, last⟩
    rw [plant, below]
    exact done

theorem Sound.exists_plantAll {f : Forest α} (sound : f.Sound) :
    (ts : List (Tree α)) → ∃ made g, made.map Prod.snd = ts ∧
      f.plantAll ts = .ok (made.map Prod.fst, g) ∧ Planted f g made
  | [] => ⟨[], f, rfl, rfl, .refl f, sound, id⟩
  | t :: ts => by
    obtain ⟨h, g, done, first, -⟩ := sound.exists_plant t
    obtain ⟨made, k, rfl, rest, others⟩ := first.sound.exists_plantAll ts
    refine ⟨(h, t) :: made, k, rfl, ?_, (first.trans others).perm List.perm_append_comm⟩
    rw [plantAll, done]
    simp only [bind, Except.bind, rest]
    rfl

end

theorem Sound.plantAll (sound : f.Sound) {ts : List (Tree α)} {hs : List Nat}
    (done : f.plantAll ts = .ok (hs, g)) : g.Sound := by
  obtain ⟨made, k, -, came, planted⟩ := sound.exists_plantAll ts
  rw [done] at came
  cases came
  exact planted.sound

theorem plantAll_snoc {ts : List (Tree α)} {t : Tree α} {hs : List Nat} {h : Nat}
    (before : f.plantAll ts = .ok (hs, g)) (last : g.plant t = .ok (h, k)) :
    f.plantAll (ts ++ [t]) = .ok (hs ++ [h], k) := by
  induction ts generalizing f hs with
  | nil =>
    cases before
    simp only [List.nil_append, Forest.plantAll, last, bind, Except.bind]
    rfl
  | cons u ts ih =>
    obtain ⟨⟨i, l⟩, first, before⟩ := ok_of_bind before
    obtain ⟨⟨is, l'⟩, others, before⟩ := ok_of_bind before
    cases before
    simp only [List.cons_append, Forest.plantAll, first, ih others, bind, Except.bind]
    rfl

structure Holds (f : Forest α) (r : Nat) (t : Tree α) : Prop where
  tree : f.tree r = .ok t
  nodes : ∃ ks : List Nat, ks.Perm (List.range f.size) ∧ f.Lists t.preorder ks
  below : ∀ h < f.size, f.Climbs h r
  rising : ∀ p cs, f.children p = .ok cs → ∀ c ∈ cs, c < p
  last : r + 1 = f.size

theorem plant_eq_ok (t : Tree α) : ∃ r f, empty.plant t = .ok (r, f) ∧ f.Holds r t := by
  obtain ⟨r, f, done, planted, last⟩ := sound_empty.exists_plant t
  have size : f.size = t.size := by
    simpa [Tree.sizeAll, empty, Forest.size] using planted.grown.size
  have shown : f.Shows none r t := planted.grown.shows (r, t) (by simp)
  obtain ⟨ks, all, values, climbs⟩ := planted.sound.census shown size.le
  refine ⟨r, f, done, planted.grown.tree_eq, ⟨ks, all, values⟩, ?_, ?_, last⟩
  · intro h inside
    exact climbs h (all.mem_iff.mpr (List.mem_range.mpr inside))
  · intro p cs noted c child
    rw [← below_of_children noted] at child
    exact planted.rising rising_empty c p ((planted.sound.linked p c).mp child)

end TurtleGraphics.Forest

import TurtleGraphics.Run.Machine

/-!
A host that keeps a log of what is done to it. A run does nothing to its host but perform effects,
look at the switches and wait, so what these keep a run keeps.
-/

namespace TurtleGraphics

structure Logged (ω : Type) where
  host : ω
  effects : List Effect

namespace Logged

variable {ω : Type}

def orders (l : Logged ω) : List Order :=
  l.effects.filterMap fun
    | .order o => some o
    | .store .. => none

instance [Host ω] : Host (Logged ω) where
  x l := Host.x l.host
  y l := Host.y l.host
  perform e l := ⟨Host.perform e l.host, l.effects ++ [e]⟩
  start l := { l with host := Host.start l.host }
  poll l := ((Host.poll l.host).1, { l with host := (Host.poll l.host).2 })
  settle l := ((Host.settle l.host).1, { l with host := (Host.settle l.host).2 })

@[simp] theorem orders_order [Host ω] (l : Logged ω) (o : Order) :
    (Host.perform (.order o) l).orders = l.orders ++ [o] := by
  change (l.effects ++ [Effect.order o]).filterMap _ = _
  simp [orders]

@[simp] theorem orders_store [Host ω] (l : Logged ω) (name : String) (x : Float) :
    (Host.perform (.store name x) l).orders = l.orders := by
  change (l.effects ++ [Effect.store name x]).filterMap _ = _
  simp [orders]

end Logged

/-- The machine that a run has got to, whether or not it has ended there. -/
def Progress.machine {ω : Type} : Progress ω → Machine ω
  | .going m => m
  | .ended _ m => m

def Progress.visible {ω : Type} : Progress ω → Option Outcome × Bindings Float × ω
  | .going m => (none, m.globals, m.host)
  | .ended o m => (some o, m.globals, m.host)

structure Host.Keeps {ω : Type} [Host ω] (P : ω → Prop) : Prop where
  perform : ∀ e h, P h → P (Host.perform e h)
  poll : ∀ h, P h → P (Host.poll h).2
  settle : ∀ h, P h → P (Host.settle h).2

namespace Machine

variable {ω : Type}

@[simp] theorem store_host (m : Machine ω) (name : String) (value : Float) :
    (m.store name value).host = m.host := by
  unfold store
  split
  · rfl
  · split <;> rfl

variable [Host ω]

/-- What every step preserves, a run preserves. -/
theorem steps_induction {P : Machine ω → Prop} (next : ∀ m, P m → P m.step.machine) {m : Machine ω}
    (there : P m) (n : Nat) : P (m.steps n).machine := by
  induction n generalizing m with
  | zero => exact there
  | succ n ih =>
    have stepped := next m there
    unfold steps
    cases step : m.step with
    | ended o k =>
      rw [step] at stepped
      exact stepped
    | going k =>
      rw [step] at stepped
      exact ih stepped

variable {P : ω → Prop}

theorem settle_keeps (keeps : Host.Keeps P) {m : Machine ω} (h : P m.host) :
    P m.settle.machine.host := by
  have hs := keeps.settle m.host h
  unfold settle
  split <;> (rename_i host e; rw [e] at hs; exact hs)

theorem carryOut_keeps (keeps : Host.Keeps P) {m : Machine ω} (h : P m.host) (d : Deed) :
    P (m.carryOut d).machine.host := by
  cases d with
  | order o => exact settle_keeps keeps (keeps.perform _ _ h)
  | store name x =>
    have hs : P (m.store name x).host := by rw [store_host]; exact h
    exact keeps.perform _ _ hs
  | push | define | call => exact h

theorem attempt_keeps (keeps : Host.Keeps P) {m : Machine ω} (h : P m.host)
    (find : Bindings (Tree Node) → View → Except RuntimeError Deed) :
    P (m.attempt find).machine.host := by
  unfold attempt
  split
  · exact carryOut_keeps keeps h _
  · exact h

theorem proceed_keeps (keeps : Host.Keeps P) {m : Machine ω} (h : P m.host)
    (find : Bindings (Tree Node) → View → Except RuntimeError Deed) :
    P (m.proceed find).machine.host := by
  have hp := keeps.poll m.host h
  unfold proceed
  split
  · rename_i host e
    rw [e] at hp
    exact hp
  · rename_i host e
    rw [e] at hp
    refine attempt_keeps keeps ?_ find
    exact hp

theorem step_keeps (keeps : Host.Keeps P) {m : Machine ω} (h : P m.host) :
    P m.step.machine.host := by
  unfold step
  split
  · exact h
  · refine proceed_keeps keeps ?_ _
    exact h
  · exact h
  · exact h
  · refine proceed_keeps keeps ?_ _
    exact h
  · exact h

theorem steps_keeps (keeps : Host.Keeps P) {m : Machine ω} (h : P m.host) (n : Nat) :
    P (m.steps n).machine.host :=
  steps_induction (P := fun k => P k.host) (fun _ => step_keeps keeps) h n

end Machine

theorem Logged.keeps_log {ω : Type} [Host ω] (log : List Effect) :
    Host.Keeps fun l : Logged ω => log <+: l.effects where
  perform _ _ h := h.trans (List.prefix_append _ _)
  poll _ h := h
  settle _ h := h

end TurtleGraphics

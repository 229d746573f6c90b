import TreeLowering.Rewrite

namespace TreeLowering

namespace Walk

variable {σ ε α β : Type}

theorem run_bind (c : Walk σ ε α) (next : α → Walk σ ε β) (s : σ) :
    (c >>= next).run s =
      match c.run s with
      | (.ok a, s) => (next a).run s
      | (.error e, s) => (.error e, s) := by
  change (match (c.run s).1 with
    | .ok a => (next a).run
    | .error e => pure (.error e)) (c.run s).2 = _
  cases c.run s with
  | mk outcome s => cases outcome <;> rfl

theorem run_ok {c : Walk σ ε α} {next : α → Walk σ ε β} {s t : σ} {a : α} (done : c.run s = (.ok a, t)) :
    (c >>= next).run s = (next a).run t := by
  rw [run_bind, done]

theorem run_error {c : Walk σ ε α} {next : α → Walk σ ε β} {s t : σ} {e : ε}
    (failed : c.run s = (.error e, t)) : (c >>= next).run s = (.error e, t) := by
  rw [run_bind, failed]

-- From every state, results satisfy `P` and errors satisfy `E`.
def Ends (c : Walk σ ε α) (P : α → Prop) (E : ε → Prop) : Prop :=
  ∀ s, match (c.run s).1 with
    | .ok a => P a
    | .error e => E e

variable {P : α → Prop} {Q : β → Prop} {E : ε → Prop}

theorem ends_pure {a : α} (holds : P a) : Ends (pure a : Walk σ ε α) P E := fun _ => holds

theorem ends_throw {e : ε} (holds : E e) : Ends (throw e : Walk σ ε α) P E := fun _ => holds

theorem Ends.bind {c : Walk σ ε α} {next : α → Walk σ ε β} (first : c.Ends P E)
    (rest : ∀ a, P a → (next a).Ends Q E) : (c >>= next).Ends Q E := by
  intro s
  have before := first s
  rw [run_bind]
  generalize c.run s = done at before
  obtain ⟨outcome, t⟩ := done
  cases outcome with
  | ok a => exact rest a before t
  | error e => exact before

theorem Ends.mono {c : Walk σ ε α} {P' : α → Prop} {E' : ε → Prop} (ends : c.Ends P E)
    (results : ∀ a, P a → P' a) (errors : ∀ e, E e → E' e) : c.Ends P' E' := by
  intro s
  have before := ends s
  generalize c.run s = done at before ⊢
  obtain ⟨outcome, t⟩ := done
  cases outcome with
  | ok a => exact results a before
  | error e => exact errors e before

end Walk

theorem Rewriting.run_ofExcept {α : Type} (outcome : Except RewriteError α) (s : NameSupply) :
    (Rewriting.ofExcept outcome).run s = (outcome, s) := by
  cases outcome <;> rfl

end TreeLowering

import Registry.Effect.Prog

/-! # What a program calls and returns

A bound on a program's calls, with their arguments, and on its results, for any
answers that the calls may get. Nothing is assumed of the world or of other
parties, so the bound holds in every run.
-/

namespace Effect.Prog

variable {sig : Signature} {ε ε' α β : Type} {allowed : sig.Op → Prop} {result : α → Prop}

/-- However its calls are answered, the program only calls these operations, never gives
up, and only returns such results. -/
def Emits (allowed : sig.Op → Prop) (result : α → Prop) : Prog sig ε α → Prop
  | .pure value => result value
  | .throw _ => True
  | .diverge => False
  | .call op rest => allowed op ∧ ∀ response, (rest response).Emits allowed result

theorem Emits.uses {prog : Prog sig ε α} (hprog : prog.Emits allowed result) :
    prog.Uses allowed := by
  induction prog with
  | pure value => trivial
  | throw error => trivial
  | diverge => exact hprog
  | call op rest ih => exact ⟨hprog.1, fun response => ih response (hprog.2 response)⟩

theorem Emits.bind {last : β → Prop} {prog : Prog sig ε α} {next : α → Prog sig ε β}
    (hprog : prog.Emits allowed result)
    (hnext : ∀ value, result value → (next value).Emits allowed last) :
    (prog >>= next).Emits allowed last := by
  induction prog with
  | pure value => exact hnext value hprog
  | throw error => trivial
  | diverge => exact hprog.elim
  | call op rest ih => exact ⟨hprog.1, fun response => ih response (hprog.2 response)⟩

/-- What is returned after an error is bounded for the other results only. -/
theorem Emits.attempt {prog : Prog sig ε α} (hprog : prog.Emits allowed result) :
    (prog.attempt : Prog sig ε' (Except ε α)).Emits allowed fun answer =>
      ∀ value, answer = .ok value → result value := by
  induction prog with
  | pure value =>
      intro other hother
      exact Except.ok.inj hother ▸ hprog
  | throw error => exact nofun
  | diverge => exact hprog
  | call op rest ih => exact ⟨hprog.1, fun response => ih response (hprog.2 response)⟩

theorem Emits.ofExcept {answer : Except ε α}
    (hanswer : ∀ value, answer = .ok value → result value) :
    (Prog.ofExcept answer : Prog sig ε α).Emits allowed result := by
  cases answer with
  | error error => trivial
  | ok value => exact hanswer value rfl

end Effect.Prog

namespace SealedChat

instance decidableEqExcept {ε α : Type} [DecidableEq ε] [DecidableEq α] :
    DecidableEq (Except ε α)
  | .ok a, .ok b => decidable_of_iff (a = b) ⟨congrArg Except.ok, Except.ok.inj⟩
  | .error a, .error b => decidable_of_iff (a = b) ⟨congrArg Except.error, Except.error.inj⟩
  | .ok _, .error _ => isFalse nofun
  | .error _, .ok _ => isFalse nofun

/-- Repeats a step until it has a result, at most once for each element of the bound. A step that
reads at least one of the symbols that are left, or fails, is bounded by them; when none is left, it
can only fail as `exhausted`. -/
@[specialize] def repeatWithin {R ε σ α β : Type} (exhausted : ε)
    (step : σ → StateT R (Except ε) (σ ⊕ α)) : (bound : List β) → σ → StateT R (Except ε) α
  | [], _ => throw exhausted
  | _ :: bound, s => do
    match ← step s with
    | .inl s => repeatWithin exhausted step bound s
    | .inr a => return a

section

variable {R ε α β : Type} {step : StateT R (Except ε) α} {next : α → StateT R (Except ε) β} {s : R}

theorem bind_of_ok {after : R} {value : α} (h : step s = .ok (value, after)) :
    (step >>= next) s = next value after := by
  change (step s >>= fun read => next read.1 read.2) = _
  rw [h]
  rfl

theorem bind_of_error {error : ε} (h : step s = .error error) :
    (step >>= next) s = .error error := by
  change (step s >>= fun read => next read.1 read.2) = _
  rw [h]
  rfl

theorem exists_of_bind_ok {result : β × R} (h : (step >>= next) s = .ok result) :
    ∃ value after, step s = .ok (value, after) ∧ next value after = .ok result := by
  cases first : step s with
  | error error => cases (bind_of_error first).symm.trans h
  | ok read => exact ⟨read.1, read.2, rfl, (bind_of_ok first).symm.trans h⟩

end

end SealedChat

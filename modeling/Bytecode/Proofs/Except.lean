/-!
# Computations that can fail

A computation that succeeded went through all its parts. A fold that can fail comes to an end if each of its steps does,
and what every step keeps then holds where it ends.
-/

namespace Bytecode

/-- A sequence that succeeds takes its first part and then the second. -/
theorem exists_of_bind_eq_ok {α β ε : Type} {first : Except ε α} {rest : α → Except ε β} {result : β}
    (h : first >>= rest = .ok result) : ∃ middle, first = .ok middle ∧ rest middle = .ok result := by
  cases first with
  | error error => cases h
  | ok middle => exact ⟨middle, rfl, h⟩

theorem exists_of_map_eq_ok {α β ε : Type} {f : α → β} {first : Except ε α} {result : β}
    (h : first.map f = .ok result) : ∃ before, first = .ok before ∧ f before = result := by
  cases first with
  | error error => cases h
  | ok before => exact ⟨before, rfl, Except.ok.inj h⟩

theorem exists_of_toOption_map {α β ε : Type} {f : α → β} {first : Except ε α} {result : β}
    (h : first.toOption.map f = some result) : ∃ before, first = .ok before ∧ f before = result := by
  cases first with
  | error error => cases h
  | ok before => exact ⟨before, rfl, Option.some.inj h⟩

theorem foldlM_succeeds {σ α ε : Type} {step : σ → α → Except ε σ} {entries : List α}
    (hstep : ∀ entry ∈ entries, ∀ state, ∃ next, step state entry = .ok next) (start : σ) :
    ∃ last, entries.foldlM step start = .ok last := by
  induction entries generalizing start with
  | nil => exact ⟨start, rfl⟩
  | cons entry entries ih =>
    obtain ⟨next, hnext⟩ := hstep entry List.mem_cons_self start
    obtain ⟨last, hlast⟩ := ih (fun other hother => hstep other (List.mem_cons_of_mem _ hother)) next
    exact ⟨last, by rw [List.foldlM_cons, hnext]; exact hlast⟩

theorem foldlM_concat {σ α ε : Type} {step : σ → α → Except ε σ} {entries : List α} {entry : α} {start state next : σ}
    (h : entries.foldlM step start = .ok state) (hstep : step state entry = .ok next) :
    (entries ++ [entry]).foldlM step start = .ok next := by
  rw [List.foldlM_append, h]
  exact congrArg (· >>= pure) hstep

/-- What every step of a fold keeps holds where the fold ends, with all entries done. -/
theorem foldlM_reaches {σ α ε : Type} (P : List α → σ → Prop) {step : σ → α → Except ε σ} {entries : List α}
    {start last : σ} (h : entries.foldlM step start = .ok last) (hstart : P [] start)
    (hstep : ∀ done entry rest state next, entries = done ++ entry :: rest → P done state →
      step state entry = .ok next → P (done ++ [entry]) next) : P entries last := by
  have hrest : ∀ rest done state, entries = done ++ rest → P done state → rest.foldlM step state = .ok last →
      P entries last := by
    intro rest
    induction rest with
    | nil =>
      intro done state hentries hstate hlast
      obtain rfl : state = last := Except.ok.inj hlast
      rw [List.append_nil] at hentries
      exact hentries ▸ hstate
    | cons entry rest ih =>
      intro done state hentries hstate hlast
      rw [List.foldlM_cons] at hlast
      obtain ⟨next, hentry, hrest⟩ := exists_of_bind_eq_ok hlast
      have hnext := hstep done entry rest state next hentries hstate hentry
      exact ih (done ++ [entry]) next (by simpa using hentries) hnext hrest
  exact hrest entries [] start rfl hstart h

end Bytecode

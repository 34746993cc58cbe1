/-
Answers that may be refused.

A step that needs several answers is answered only if each of them is, so an answer says that all
the answers it was made of were there.
-/
import Interlock.Plan.Fault

namespace Interlock

variable {ε α β : Type}

/-- A composed answer is made of the answers of its parts. -/
theorem bind_eq_ok_iff {x : Except ε α} {f : α → Except ε β} {b : β} :
    x >>= f = .ok b ↔ ∃ a, x = .ok a ∧ f a = .ok b := by
  cases x with
  | error fault => simp [bind, Except.bind]
  | ok a => simp [bind, Except.bind]

/-- A composed answer is refused if one of its parts is. -/
theorem bind_eq_error_iff {x : Except ε α} {f : α → Except ε β} {fault : ε} :
    x >>= f = .error fault ↔ x = .error fault ∨ ∃ a, x = .ok a ∧ f a = .error fault := by
  cases x with
  | error fault => simp [bind, Except.bind]
  | ok a => simp [bind, Except.bind]

/-- A check has nothing to answer but that it is passed. -/
theorem bind_check_eq_ok_iff {x : Except ε Unit} {f : Unit → Except ε β} {b : β} :
    x >>= f = .ok b ↔ x = .ok () ∧ f () = .ok b := by
  rw [bind_eq_ok_iff]
  exact ⟨fun ⟨_, hx, hf⟩ => ⟨hx, hf⟩, fun ⟨hx, hf⟩ => ⟨(), hx, hf⟩⟩

theorem forM_eq_ok_iff {f : α → Except ε Unit} {l : List α} :
    l.forM f = .ok () ↔ ∀ a ∈ l, f a = .ok () := by
  induction l with
  | nil => simp [pure, Except.pure]
  | cons a rest ih =>
      rw [List.forall_mem_cons, ← ih]
      show (f a >>= fun _ => rest.forM f) = .ok () ↔ _
      rw [bind_eq_ok_iff]
      exact ⟨fun ⟨_, ha, hrest⟩ => ⟨ha, hrest⟩, fun ⟨ha, hrest⟩ => ⟨(), ha, hrest⟩⟩

/-- A fold is refused only by one of its steps. -/
theorem exists_of_foldlM_eq_error {f : β → α → Except ε β} {l : List α} {fault : ε} :
    ∀ {b : β}, l.foldlM f b = .error fault → ∃ a ∈ l, ∃ b', f b' a = .error fault := by
  induction l with
  | nil => exact nofun
  | cons a rest ih =>
      intro b h
      rw [List.foldlM_cons] at h
      rcases bind_eq_error_iff.mp h with hfirst | ⟨b', -, hrest⟩
      · exact ⟨a, List.mem_cons_self .., b, hfirst⟩
      · obtain ⟨other, hother, hrefused⟩ := ih hrest
        exact ⟨other, List.mem_cons_of_mem _ hother, hrefused⟩

/-- Answers to all are given if each is, and then they are these answers. -/
theorem mapM_isOk_iff {f : α → Except ε β} {l : List α} :
    (∃ answers, l.mapM f = .ok answers) ↔ ∀ a ∈ l, ∃ b, f a = .ok b := by
  induction l with
  | nil => exact ⟨fun _ _ h => (nomatch h), fun _ => ⟨[], rfl⟩⟩
  | cons a rest ih =>
      rw [List.forall_mem_cons, ← ih, List.mapM_cons]
      constructor
      · rintro ⟨answers, h⟩
        obtain ⟨b, ha, h⟩ := bind_eq_ok_iff.mp h
        obtain ⟨others, hrest, -⟩ := bind_eq_ok_iff.mp h
        exact ⟨⟨b, ha⟩, others, hrest⟩
      · rintro ⟨⟨b, ha⟩, others, hrest⟩
        exact ⟨b :: others, bind_eq_ok_iff.mpr ⟨b, ha, bind_eq_ok_iff.mpr ⟨others, hrest, rfl⟩⟩⟩

theorem mem_of_mapM_eq_ok {f : α → Except ε β} {l : List α} {answers : List β}
    (h : l.mapM f = .ok answers) {b : β} : b ∈ answers ↔ ∃ a ∈ l, f a = .ok b := by
  induction l generalizing answers with
  | nil =>
      cases h
      simp
  | cons a rest ih =>
      rw [List.mapM_cons] at h
      obtain ⟨first, ha, h⟩ := bind_eq_ok_iff.mp h
      obtain ⟨others, hrest, h⟩ := bind_eq_ok_iff.mp h
      cases h
      simp only [List.mem_cons, ih hrest, exists_eq_or_imp, ha, Except.ok.injEq, eq_comm (a := b)]

theorem exists_of_isOk {x : Except ε α} (h : x.isOk = true) : ∃ a, x = .ok a := by
  cases x with
  | error fault => cases h
  | ok a => exact ⟨a, rfl⟩

/-- What a circuit answers is passed on. -/
theorem ofCircuit_eq_ok_iff {answer : Except Circuit.Fault α} {a : α} :
    Fault.ofCircuit answer = .ok a ↔ answer = .ok a := by
  cases answer with
  | ok b => simp [Fault.ofCircuit]
  | error fault => simp [Fault.ofCircuit]

end Interlock

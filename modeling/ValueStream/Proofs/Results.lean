import Mathlib.Data.List.Forall2

/-!
Results told apart by what is known of them.

A list is read to its end, and then all of its elements were read
(`forall_mem_of_forall₂`), or up to its first element that cannot be read
(`forall₂_or_first`). Where it is known of each result when it comes about, and
one of them always does, every result shows what was read
(`ok_iff_and_error_iff`).
-/

namespace ValueStream

/-- What is so of all that is related to something is so of the elements of related lists. -/
theorem forall_mem_of_forall₂ {α β : Type} {R : α → β → Prop} {p : α → Prop}
    (hp : ∀ a b, R a b → p a) {as : List α} {bs : List β} (h : List.Forall₂ R as bs) :
    ∀ a ∈ as, p a := by
  have hboth : List.Forall₂ (fun a b => p a ∧ R a b) as bs :=
    h.imp (fun a b hab => ⟨hp a b hab, hab⟩)
  exact ((List.forall₂_and_left _ _).mp hboth).1

/-- Of the elements of a list each is related to something, or some first one is not. -/
theorem forall₂_or_first {α β : Type} (R : α → β → Prop) (as : List α) :
    (∃ bs, List.Forall₂ R as bs)
      ∨ ∃ before a after, as = before ++ a :: after ∧ (∀ x ∈ before, ∃ b, R x b) ∧ ¬∃ b, R a b := by
  induction as with
  | nil => exact .inl ⟨[], .nil⟩
  | cons a as ih =>
    by_cases ha : ∃ b, R a b
    · obtain ⟨b, hb⟩ := ha
      rcases ih with ⟨bs, hbs⟩ | ⟨before, x, after, rfl, hbefore, hx⟩
      · exact .inl ⟨b :: bs, .cons hb hbs⟩
      · exact .inr ⟨a :: before, x, after, rfl, List.forall_mem_cons.mpr ⟨⟨b, hb⟩, hbefore⟩, hx⟩
    · exact .inr ⟨[], a, as, rfl, List.forall_mem_nil _, ha⟩

theorem toOption_eq_some_iff {ε β : Type} {result : Except ε β} {b : β} :
    result.toOption = some b ↔ result = .ok b := by
  cases result <;> simp only [Except.toOption, Option.some.injEq, Except.ok.injEq, reduceCtorEq]

/-- What is known of every result, and covers all of them, tells the results apart. -/
theorem ok_iff_and_error_iff {ε β : Type} {result : Except ε β} {P : β → Prop} {Q : ε → Prop}
    (hok : ∀ b, P b → result = .ok b) (herror : ∀ e, Q e → result = .error e)
    (htotal : (∃ b, P b) ∨ ∃ e, Q e) :
    (∀ b, result = .ok b ↔ P b) ∧ ∀ e, result = .error e ↔ Q e := by
  rcases htotal with ⟨b', hb'⟩ | ⟨e', he'⟩
  · obtain rfl := hok b' hb'
    refine ⟨fun b => ⟨?_, hok b⟩, fun e => ⟨?_, herror e⟩⟩
    · rintro ⟨⟩
      exact hb'
    · rintro ⟨⟩
  · obtain rfl := herror e' he'
    refine ⟨fun b => ⟨?_, hok b⟩, fun e => ⟨?_, herror e⟩⟩
    · rintro ⟨⟩
    · rintro ⟨⟩
      exact he'

end ValueStream

import Mathlib.Data.List.Forall2

namespace DialogueFlow

variable {α β ε : Type}

theorem bind_eq_ok_iff {x : Except ε α} {f : α → Except ε β} {r : β} :
    x >>= f = .ok r ↔ ∃ a, x = .ok a ∧ f a = .ok r := by
  cases x <;> simp [bind, Except.bind]

theorem map_eq_ok_iff {x : Except ε α} {g : α → β} {b : β} :
    x.map g = .ok b ↔ ∃ a, x = .ok a ∧ g a = b := by
  cases x <;> simp [Except.map]

theorem bind_eq_error_iff {x : Except ε α} {f : α → Except ε β} {e : ε} :
    x >>= f = .error e ↔ x = .error e ∨ ∃ a, x = .ok a ∧ f a = .error e := by
  cases x <;> simp [bind, Except.bind]

theorem map_eq_error_iff {x : Except ε α} {g : α → β} {e : ε} :
    x.map g = .error e ↔ x = .error e := by
  cases x <;> simp [Except.map]

theorem exists_ok_of_map {x : Except ε α} {g : α → β} {b : β}
    (h : x.toOption.map g = some b) : ∃ a, x = .ok a ∧ g a = b := by
  cases x with
  | error fault => simp [Except.toOption] at h
  | ok a => exact ⟨a, rfl, by simpa [Except.toOption] using h⟩

def fault? : Except ε α → Option ε
  | .error e => some e
  | .ok _ => none

theorem exists_error_of_map {x : Except ε α} {g : ε → β} {b : β}
    (h : (fault? x).map g = some b) : ∃ e, x = .error e ∧ g e = b := by
  cases x with
  | error e => exact ⟨e, rfl, by simpa [fault?] using h⟩
  | ok a => simp [fault?] at h

theorem exists_forall₂_iff {R : α → β → Prop} (as : List α) :
    (∃ bs, List.Forall₂ R as bs) ↔ ∀ a ∈ as, ∃ b, R a b := by
  induction as with
  | nil => simp
  | cons a as ih =>
    rw [List.forall_mem_cons, ← ih]
    apply Iff.intro
    · rintro ⟨_, h⟩
      cases h with
      | cons hab h => exact ⟨⟨_, hab⟩, _, h⟩
    · rintro ⟨⟨b, hab⟩, bs, h⟩
      exact ⟨b :: bs, .cons hab h⟩

theorem exists_mem_of_forall₂ {R : α → β → Prop} {as : List α} {bs : List β}
    (h : List.Forall₂ R as bs) {a : α} (ha : a ∈ as) : ∃ b ∈ bs, R a b := by
  induction h with
  | nil => simp at ha
  | @cons a' b' as bs hab _ ih =>
    obtain rfl | ha := List.mem_cons.mp ha
    · exact ⟨b', by simp, hab⟩
    · obtain ⟨b, hb, hr⟩ := ih ha
      exact ⟨b, by simp [hb], hr⟩

theorem mapM_eq_ok_iff {f : α → Except ε β} {xs : List α} {ys : List β} :
    xs.mapM f = .ok ys ↔ List.Forall₂ (fun x y => f x = .ok y) xs ys := by
  induction xs generalizing ys with
  | nil => cases ys <;> simp [pure, Except.pure]
  | cons x xs ih =>
    rw [List.mapM_cons, bind_eq_ok_iff, List.forall₂_cons_left_iff]
    refine exists_congr (fun y => ?_)
    rw [bind_eq_ok_iff]
    apply Iff.intro
    · rintro ⟨hx, ys', hxs, hys⟩
      exact ⟨ys', hx, ih.mp hxs, (Except.ok.inj hys).symm⟩
    · rintro ⟨ys', hx, hxs, rfl⟩
      exact ⟨hx, ys', ih.mpr hxs, rfl⟩

theorem foldlM_invariant {step : β → α → Except ε β} {P : β → Prop}
    (hstep : ∀ b a b', step b a = .ok b' → P b → P b') {l : List α} {b b' : β}
    (h : l.foldlM step b = .ok b') (hb : P b) : P b' := by
  induction l generalizing b with
  | nil =>
    cases h
    exact hb
  | cons a rest ih =>
    rw [List.foldlM_cons, bind_eq_ok_iff] at h
    obtain ⟨c, hc, h⟩ := h
    exact ih h (hstep b a c hc hb)

/-- Where a step fails, the fault is of a kind. -/
def FailsOnly (kind : ε → Prop) (x : Except ε α) : Prop := ∀ e, x = .error e → kind e

variable {kind : ε → Prop}

theorem FailsOnly.imp {kind' : ε → Prop} {x : Except ε α} (h : FailsOnly kind x)
    (himp : ∀ e, kind e → kind' e) : FailsOnly kind' x :=
  fun e he => himp e (h e he)

theorem failsOnly_ok (a : α) : FailsOnly kind (.ok a : Except ε α) := by
  rintro e ⟨⟩

theorem failsOnly_error {e : ε} (h : kind e) : FailsOnly kind (.error e : Except ε α) := by
  rintro e ⟨⟩
  exact h

theorem failsOnly_of_exists {x : Except ε α} (h : ∃ a, x = .ok a) : FailsOnly kind x := by
  obtain ⟨a, rfl⟩ := h
  exact failsOnly_ok a

theorem FailsOnly.bind {x : Except ε α} {f : α → Except ε β} (hx : FailsOnly kind x)
    (hf : ∀ a, x = .ok a → FailsOnly kind (f a)) : FailsOnly kind (x >>= f) := by
  intro e h
  obtain h | ⟨a, ha, h⟩ := bind_eq_error_iff.mp h
  · exact hx e h
  · exact hf a ha e h

theorem FailsOnly.map {x : Except ε α} {g : α → β} (hx : FailsOnly kind x) :
    FailsOnly kind (x.map g) :=
  fun e h => hx e (map_eq_error_iff.mp h)

theorem FailsOnly.mapM {f : α → Except ε β} {xs : List α} (hf : ∀ a ∈ xs, FailsOnly kind (f a)) :
    FailsOnly kind (xs.mapM f) := by
  induction xs with
  | nil => exact failsOnly_ok []
  | cons x xs ih =>
    obtain ⟨hx, hxs⟩ := List.forall_mem_cons.mp hf
    rw [List.mapM_cons]
    exact hx.bind (fun y _ => (ih hxs).bind (fun ys _ => failsOnly_ok _))

theorem FailsOnly.foldlM {step : β → α → Except ε β} {xs : List α}
    (hstep : ∀ b, ∀ a ∈ xs, FailsOnly kind (step b a)) (b : β) :
    FailsOnly kind (xs.foldlM step b) := by
  induction xs generalizing b with
  | nil => exact failsOnly_ok b
  | cons x xs ih =>
    rw [List.foldlM_cons]
    exact (hstep b x List.mem_cons_self).bind
      (fun c _ => ih (fun b a ha => hstep b a (List.mem_cons_of_mem x ha)) c)

/-- A list comes to a bad value behind values that are fine together. -/
def BreaksAt (fine : List α → Prop) (bad : α → Prop) (l : List α) : Prop :=
  ∃ before a after, l = before ++ a :: after ∧ fine before ∧ bad a

theorem not_breaksAt_nil (fine : List α → Prop) (bad : α → Prop) : ¬ BreaksAt fine bad [] := by
  rintro ⟨before, a, after, h, -⟩
  simp at h

theorem breaksAt_cons {fine : List α → Prop} {bad : α → Prop} {a : α} {l : List α} :
    BreaksAt fine bad (a :: l) ↔
      fine [] ∧ bad a ∨ BreaksAt (fun before => fine (a :: before)) bad l := by
  apply Iff.intro
  · rintro ⟨before, x, after, h, hfine, hbad⟩
    cases before with
    | nil =>
      obtain ⟨rfl, -⟩ := List.cons.inj h
      exact .inl ⟨hfine, hbad⟩
    | cons y before =>
      obtain ⟨rfl, rfl⟩ := List.cons.inj h
      exact .inr ⟨before, x, after, rfl, hfine, hbad⟩
  · rintro (⟨hfine, hbad⟩ | ⟨before, x, after, rfl, hfine, hbad⟩)
    · exact ⟨[], a, l, rfl, hfine, hbad⟩
    · exact ⟨a :: before, x, after, rfl, hfine, hbad⟩

theorem BreaksAt.exists_mem {fine : List α → Prop} {bad : α → Prop} {l : List α}
    (h : BreaksAt fine bad l) : ∃ a ∈ l, bad a := by
  obtain ⟨before, a, after, rfl, -, hbad⟩ := h
  exact ⟨a, by simp, hbad⟩

/-- If a fault depends on the value alone, the first value that has it ends the steps. -/
theorem foldlM_eq_error_iff {step : β → α → Except ε β} {e : ε} {bad : α → Prop}
    (hbad : ∀ b a, step b a = .error e ↔ bad a) {l : List α} {b : β} :
    l.foldlM step b = .error e ↔
      BreaksAt (fun before => ∃ b', before.foldlM step b = .ok b') bad l := by
  induction l generalizing b with
  | nil => exact iff_of_false (by simp [pure, Except.pure]) (not_breaksAt_nil _ _)
  | cons a l ih =>
    rw [List.foldlM_cons, bind_eq_error_iff, breaksAt_cons, hbad]
    refine or_congr ⟨fun h => ⟨⟨b, rfl⟩, h⟩, fun h => h.2⟩ ?_
    simp only [List.foldlM_cons]
    cases hstep : step b a with
    | error e' => exact iff_of_false (by simp) (by rintro ⟨_, _, _, -, ⟨_, h⟩, -⟩; cases h)
    | ok c =>
      apply Iff.intro
      · rintro ⟨_, ⟨⟩, h⟩
        exact ih.mp h
      · exact fun h => ⟨c, rfl, ih.mpr h⟩

theorem mapM_eq_error_iff {f : α → Except ε β} {e : ε} {xs : List α} :
    xs.mapM f = .error e ↔
      BreaksAt (fun before => ∀ x ∈ before, ∃ y, f x = .ok y) (fun x => f x = .error e) xs := by
  induction xs with
  | nil => exact iff_of_false (by simp [pure, Except.pure]) (not_breaksAt_nil _ _)
  | cons x xs ih =>
    rw [List.mapM_cons, bind_eq_error_iff, breaksAt_cons]
    refine or_congr (by simp) ?_
    simp only [bind_eq_error_iff, List.forall_mem_cons]
    cases hx : f x with
    | error e' => exact iff_of_false (by simp) (by rintro ⟨_, _, _, -, ⟨⟨_, h⟩, -⟩, -⟩; cases h)
    | ok y => simp [ih, pure, Except.pure]

end DialogueFlow

import Mathlib.Data.List.Perm.Basic

namespace Python

-- Code that may raise: what is known when it has returned.
variable {ε α β : Type}

theorem exists_ok {x : Except ε α} (h : x.toOption.isSome = true) : ∃ a, x = .ok a := by
  cases x with
  | ok a => exact ⟨a, rfl⟩
  | error e => cases h

theorem bind_eq_ok {x : Except ε α} {f : α → Except ε β} {b : β} :
    x >>= f = .ok b ↔ ∃ a, x = .ok a ∧ f a = .ok b := by
  cases x with
  | error e => exact ⟨nofun, nofun⟩
  | ok a => exact ⟨fun h => ⟨a, rfl, h⟩, fun ⟨_, ha, h⟩ => by cases ha; exact h⟩

theorem map_eq_ok {x : Except ε α} {f : α → β} {b : β} :
    x.map f = .ok b ↔ ∃ a, x = .ok a ∧ f a = b := by
  cases x with
  | error e => exact ⟨nofun, nofun⟩
  | ok a => simp [Except.map]

theorem mapM_eq_ok {f : α → Except ε β} {xs : List α} {ys : List β} :
    xs.mapM f = .ok ys ↔ xs.map f = ys.map .ok := by
  induction xs generalizing ys with
  | nil => cases ys <;> simp [pure, Except.pure]
  | cons x rest ih =>
      rw [List.mapM_cons, bind_eq_ok, List.map_cons]
      simp only [bind_eq_ok, ih]
      cases ys with
      | nil => simp [pure, Except.pure]
      | cons y ys =>
          constructor
          · rintro ⟨a, ha, b, hb, ⟨⟩⟩
            rw [ha, hb, List.map_cons]
          · intro h
            obtain ⟨ha, hb⟩ := List.cons.inj h
            exact ⟨y, ha, ys, hb, rfl⟩

theorem mapM_eq_ok_iff_forall₂ {f : α → Except ε β} {xs : List α} {ys : List β} :
    xs.mapM f = .ok ys ↔ List.Forall₂ (fun x y => f x = .ok y) xs ys := by
  rw [mapM_eq_ok, ← List.forall₂_eq_eq_eq, List.forall₂_map_left_iff, List.forall₂_map_right_iff]

theorem mapM_perm {f : α → Except ε β} {xs xs' : List α} {ys : List β} (hp : xs.Perm xs')
    (h : xs.mapM f = .ok ys) : ∃ ys', xs'.mapM f = .ok ys' ∧ ys'.Perm ys := by
  obtain ⟨ys', hys', hp'⟩ := List.perm_comp_forall₂ hp.symm (mapM_eq_ok_iff_forall₂.mp h)
  exact ⟨ys', mapM_eq_ok_iff_forall₂.mpr hys', hp'⟩

theorem forM_eq_ok {f : α → Except ε Unit} {xs : List α} :
    xs.forM f = .ok () ↔ ∀ x ∈ xs, f x = .ok () := by
  induction xs with
  | nil => simp [pure, Except.pure]
  | cons x rest ih =>
      have hcons : (x :: rest).forM f = f x >>= fun _ => rest.forM f := rfl
      rw [hcons, bind_eq_ok, List.forall_mem_cons, ← ih]
      exact ⟨fun ⟨_, hx, hrest⟩ => ⟨hx, hrest⟩, fun ⟨hx, hrest⟩ => ⟨(), hx, hrest⟩⟩

theorem mapM_of_forall₂ {f : α → Except ε β} {ys : List β} {xs : List α}
    (h : List.Forall₂ (fun y x => f x = .ok y) ys xs) : xs.mapM f = .ok ys := by
  rw [mapM_eq_ok]
  induction h with
  | nil => rfl
  | cons hx _ ih => rw [List.map_cons, List.map_cons, hx, ih]

theorem forM_eq_error {f : α → Except ε Unit} {xs : List α} {error : ε}
    (h : xs.forM f = .error error) : ∃ x ∈ xs, f x = .error error := by
  induction xs with
  | nil => cases h
  | cons x rest ih =>
      have hcons : (x :: rest).forM f = f x >>= fun _ => rest.forM f := rfl
      rw [hcons] at h
      cases hx : f x with
      | error e =>
          rw [hx] at h
          exact ⟨x, List.mem_cons_self, hx.trans h⟩
      | ok _ =>
          rw [hx] at h
          obtain ⟨y, hy, hfailed⟩ := ih h
          exact ⟨y, List.mem_cons_of_mem _ hy, hfailed⟩

end Python

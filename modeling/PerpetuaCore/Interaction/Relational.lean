import PerpetuaCore.Interaction.Indifference

namespace Interaction

variable {S P P' : Signature} {O ε τ α α' β β' : Type}

-- What the environment of a run may answer.
abbrev Environment (S : Signature) := (op : S.Op) → S.Ans op → Prop

def Meets (A : Environment S) (t : Trace S O) : Prop :=
  ∀ op answer, .act op answer ∈ t → A op answer

theorem Meets.append_iff {A : Environment S} {s t : Trace S O} :
    Meets A (s ++ t) ↔ Meets A s ∧ Meets A t := by
  simp only [Meets, List.mem_append]
  constructor
  · intro h
    exact ⟨fun op a hm => h op a (.inl hm), fun op a hm => h op a (.inr hm)⟩
  · rintro ⟨hs, ht⟩ op a (hm | hm)
    · exact hs op a hm
    · exact ht op a hm

theorem Meets.sublist {A : Environment S} {s t : Trace S O} (h : Meets A t) (hs : s.Sublist t) :
    Meets A s :=
  fun op answer hm => h op answer (hs.subset hm)

-- Outcomes that correspond, exceptions by `E` and values by `R`.
inductive Same (E : ε → ε → Prop) (R : α → β → Prop) : Except ε α → Except ε β → Prop
  | ok {value : α} {value' : β} (h : R value value') : Same E R (.ok value) (.ok value')
  | error {error error' : ε} (h : E error error') : Same E R (.error error) (.error error')

theorem Same.bind {E : ε → ε → Prop} {R : α → α' → Prop} {R' : β → β' → Prop} {x : Except ε α}
    {y : Except ε α'} {f : α → Except ε β} {f' : α' → Except ε β'} (h : Same E R x y)
    (hf : ∀ value value', R value value' → Same E R' (f value) (f' value')) :
    Same E R' (x >>= f) (y >>= f') := by
  cases h with
  | ok hv => exact hf _ _ hv
  | error hx => exact .error hx

-- Values with the same image, or two exceptions.
theorem Same.of_toOption {γ : Type} {f : α → γ} {f' : β → γ} {x : Except ε α} {y : Except ε β}
    (h : x.toOption.map f = y.toOption.map f') :
    Same (fun _ _ => True) (fun value value' => f value = f' value') x y := by
  cases x with
  | error error =>
      cases y with
      | error error' => exact .error trivial
      | ok value' => cases h
  | ok value =>
      cases y with
      | error error' => cases h
      | ok value' => exact .ok (Option.some.inj h)

-- Whatever the two environments answer, the two programs show the same and end with
-- corresponding outcomes.
def Alike (sem : Semantics P (Entry S O)) (sem' : Semantics P' (Entry S O)) (A A' : Environment S)
    (E : ε → ε → Prop) (R : α → β → Prop) (p : Prog P ε α) (q : Prog P' ε β) : Prop :=
  ∀ t o t' o', Exec sem p t o → Meets A t → Exec sem' q t' o' → Meets A' t' →
    observations t = observations t' ∧ Same E R o o'

namespace Alike

variable {sem : Semantics P (Entry S O)} {sem' : Semantics P' (Entry S O)} {A A' : Environment S}
  {E : ε → ε → Prop}

theorem ret {R : α → β → Prop} {value : α} {value' : β} (h : R value value') :
    Alike sem sem' A A' E R (.ret value) (.ret value') := by
  intro t o t' o' he _ he' _
  obtain ⟨rfl, rfl⟩ := exec_ret he
  obtain ⟨rfl, rfl⟩ := exec_ret he'
  exact ⟨rfl, .ok h⟩

theorem raise {R : α → β → Prop} {error error' : ε} (h : E error error') :
    Alike sem sem' A A' E R (.raise error) (.raise error') := by
  intro t o t' o' he _ he' _
  obtain ⟨rfl, rfl⟩ := exec_raise he
  obtain ⟨rfl, rfl⟩ := exec_raise he'
  exact ⟨rfl, .error h⟩

theorem ofExcept {R : α → β → Prop} {x : Except ε α} {y : Except ε β} (h : Same E R x y) :
    Alike sem sem' A A' E R (.ofExcept x) (.ofExcept y) := by
  cases h with
  | ok h => exact ret h
  | error h => exact raise h

theorem bind {R : α → α' → Prop} {R' : β → β' → Prop} {p : Prog P ε α} {q : Prog P' ε α'}
    {f : α → Prog P ε β} {f' : α' → Prog P' ε β'} (hp : Alike sem sem' A A' E R p q)
    (hf : ∀ value value', R value value' → Alike sem sem' A A' E R' (f value) (f' value')) :
    Alike sem sem' A A' E R' (p.bind f) (q.bind f') := by
  intro t o t' o' he ht he' ht'
  rcases exec_bind he with ⟨s, u, value, rfl, hs, hu⟩ | ⟨error, hs, rfl⟩ <;>
    rcases exec_bind he' with ⟨s', u', value', rfl, hs', hu'⟩ | ⟨error', hs', rfl⟩
  · obtain ⟨hms, hmu⟩ := Meets.append_iff.mp ht
    obtain ⟨hms', hmu'⟩ := Meets.append_iff.mp ht'
    obtain ⟨hobs, ⟨hv⟩⟩ := hp s _ s' _ hs hms hs' hms'
    obtain ⟨hobs', hsame⟩ := hf value value' hv u o u' o' hu hmu hu' hmu'
    exact ⟨by rw [observations_append, observations_append, hobs, hobs'], hsame⟩
  · obtain ⟨-, ⟨⟩⟩ := hp s _ t' _ hs (Meets.append_iff.mp ht).1 hs' ht'
  · obtain ⟨-, ⟨⟩⟩ := hp t _ s' _ hs ht hs' (Meets.append_iff.mp ht').1
  · obtain ⟨hobs, ⟨⟩ | ⟨hx⟩⟩ := hp t _ t' _ hs ht hs' ht'
    exact ⟨hobs, .error hx⟩

theorem tryCatch {E' : ε → ε → Prop} {R : α → β → Prop} {p : Prog P ε α} {q : Prog P' ε β}
    {handler : ε → Prog P ε α} {handler' : ε → Prog P' ε β} (hp : Alike sem sem' A A' E R p q)
    (hh : ∀ error error', E error error' → Alike sem sem' A A' E' R (handler error) (handler' error')) :
    Alike sem sem' A A' E' R (p.tryCatch handler) (q.tryCatch handler') := by
  intro t o t' o' he ht he' ht'
  rcases exec_tryCatch he with ⟨value, hs, rfl⟩ | ⟨s, u, error, rfl, hs, hu⟩ <;>
    rcases exec_tryCatch he' with ⟨value', hs', rfl⟩ | ⟨s', u', error', rfl, hs', hu'⟩
  · obtain ⟨hobs, ⟨hv⟩⟩ := hp t _ t' _ hs ht hs' ht'
    exact ⟨hobs, .ok hv⟩
  · obtain ⟨-, ⟨⟩⟩ := hp t _ s' _ hs ht hs' (Meets.append_iff.mp ht').1
  · obtain ⟨-, ⟨⟩⟩ := hp s _ t' _ hs (Meets.append_iff.mp ht).1 hs' ht'
  · obtain ⟨hms, hmu⟩ := Meets.append_iff.mp ht
    obtain ⟨hms', hmu'⟩ := Meets.append_iff.mp ht'
    obtain ⟨hobs, ⟨⟩ | ⟨hx⟩⟩ := hp s _ s' _ hs hms hs' hms'
    obtain ⟨hobs', hsame⟩ := hh error error' hx u o u' o' hu hmu hu' hmu'
    exact ⟨by rw [observations_append, observations_append, hobs, hobs'], hsame⟩

theorem attempt {E' : ε → ε → Prop} {R : α → β → Prop} {p : Prog P ε α} {q : Prog P' ε β}
    (hp : Alike sem sem' A A' E R p q) :
    Alike sem sem' A A' E' (Same E R) p.attempt q.attempt := by
  refine tryCatch (E := E) ?_ fun error error' hx => ret (.error hx)
  exact bind hp fun value value' hv => ret (.ok hv)

end Alike

namespace Alike

variable {A A' : Environment S} {E : ε → ε → Prop}

theorem act {op op' : S.Op} {R : S.Ans op → S.Ans op' → Prop}
    (h : ∀ answer answer', A op answer → A' op' answer' → R answer answer') :
    Alike (acting (O := O)) acting A A' E R (.call op : Prog S ε _) (.call op') := by
  intro t o t' o' he ht he' ht'
  cases he with
  | ask hop hnext =>
      cases he' with
      | ask hop' hnext' =>
          obtain ⟨rfl, rfl⟩ := exec_ret hnext
          obtain ⟨rfl, rfl⟩ := exec_ret hnext'
          cases hop
          cases hop'
          exact ⟨rfl, .ok (h _ _ (ht _ _ (by simp)) (ht' _ _ (by simp)))⟩

theorem emit {value : O} :
    Alike generating generating A A' E Eq (.emit value : Prog (Gen S O ε τ) ε Unit)
      (.emit value : Prog (Gen S O ε τ) ε Unit) := by
  intro t o t' o' he _ he' _
  cases he with
  | ask hop hnext =>
      cases he' with
      | ask hop' hnext' =>
          obtain ⟨rfl, rfl⟩ := exec_ret hnext
          obtain ⟨rfl, rfl⟩ := exec_ret hnext'
          cases hop
          cases hop'
          exact ⟨rfl, .ok rfl⟩

theorem emitAll {f : β → O} {xs : List β} :
    Alike generating generating A A' E (fun _ _ => True)
      (xs.forM fun x => (.emit (f x) : Prog (Gen S O ε τ) ε Unit))
      (xs.forM fun x => (.emit (f x) : Prog (Gen S O ε τ) ε Unit)) := by
  induction xs with
  | nil => exact ret trivial
  | cons x rest ih => exact bind emit fun _ _ _ => ih

theorem lift {R : α → β → Prop} {p : Prog S ε α} {q : Prog S ε β}
    (h : Alike (acting (O := O)) acting A A' E R p q) :
    Alike generating generating A A' E R (p.lift : Prog (Gen S O ε τ) ε α)
      (q.lift : Prog (Gen S O ε τ) ε β) :=
  fun t o t' o' he ht he' ht' => h t o t' o' (exec_lift he) ht (exec_lift he') ht'

theorem outcomes {R : τ → τ → Prop} {ps qs : List (Prog S ε τ)} {t t' : Trace S O}
    {os os' : List (Except ε τ)} (hpq : List.Forall₂ (Alike (acting (O := O)) acting A A' E R) ps qs)
    (h : Interleaved acting ps t os) (ht : Meets A t) (h' : Interleaved acting qs t' os')
    (ht' : Meets A' t') : List.Forall₂ (Same E R) os os' := by
  induction hpq generalizing t t' os os' with
  | nil =>
      cases h
      cases h'
      exact .nil
  | cons hp _ ih =>
      cases h with
      | cons hs hrest hu =>
          cases h' with
          | cons hs' hrest' hu' =>
              have hsame := (hp _ _ _ _ hs (ht.sublist hu.sublist_left) hs'
                (ht'.sublist hu'.sublist_left)).2
              exact .cons hsame (ih hrest (ht.sublist hu.sublist_right) hrest'
                (ht'.sublist hu'.sublist_right))

-- Batches of corresponding tasks, each interleaved in an order of its own.
theorem fork {R : τ → τ → Prop} {ps qs : List (Prog S ε τ)}
    (hpq : List.Forall₂ (Alike (acting (O := O)) acting A A' E R) ps qs) :
    Alike generating generating A A' E (List.Forall₂ (Same E R))
      (.fork ps : Prog (Gen S O ε τ) ε _) (.fork qs : Prog (Gen S O ε τ) ε _) := by
  intro t o t' o' he ht he' ht'
  cases he with
  | @ask _ _ s _ os _ hop hnext =>
      cases he' with
      | @ask _ _ s' _ os' _ hop' hnext' =>
          obtain ⟨rfl, rfl⟩ := exec_ret hnext
          obtain ⟨rfl, rfl⟩ := exec_ret hnext'
          have hi : Interleaved acting ps s os := hop
          have hi' : Interleaved acting qs s' os' := hop'
          rw [List.append_nil] at ht ht' ⊢
          refine ⟨?_, .ok (outcomes hpq hi ht hi' ht')⟩
          rw [List.append_nil, interleaved_observations hi, interleaved_observations hi']

-- Runs of one program in environments that differ only in what it does not heed.
theorem of_indifferent {R : Likeness S} {p : Prog S ε α} (hp : p.Indifferent (fun _ => True) R)
    (ha : ∀ op answer answer', A op answer → A' op answer' → R op answer answer') :
    Alike (acting (O := O)) acting A A' Eq Eq p p := by
  induction p with
  | ret value => exact ret rfl
  | raise error => exact raise rfl
  | ask op next ih =>
      obtain ⟨-, hsame, hnext⟩ := hp
      have hrest : ∀ answer answer', R op answer answer' →
          Alike (acting (O := O)) acting A A' Eq Eq (next answer) (next answer') := by
        intro answer answer' hr
        rw [← hsame answer answer' hr]
        exact ih answer (hnext answer)
      have hcall : Alike (acting (O := O)) acting A A' (Eq (α := ε)) (R op) (.call op) (.call op) :=
        act (ha op)
      exact bind hcall hrest

theorem same_eq {o o' : Except ε α} (h : Same Eq Eq o o') : o = o' := by
  cases h with
  | ok h | error h => rw [h]

theorem of_heedless {R : Likeness S} {p : Prog (Gen S O ε τ) ε α} (hp : p.Heedless R)
    (ha : ∀ op answer answer', A op answer → A' op answer' → R op answer answer') :
    Alike generating generating A A' Eq Eq p p := by
  induction p with
  | ret value => exact ret rfl
  | raise error => exact raise rfl
  | ask op next ih =>
      obtain ⟨htasks, hsame, hnext⟩ := hp
      cases op with
      | act op =>
          have hrest : ∀ answer answer', R op answer answer' →
              Alike generating generating A A' Eq Eq (next answer) (next answer') := by
            intro answer answer' hr
            rw [← hsame answer answer' hr]
            exact ih answer (hnext answer)
          have hcall : Alike (acting (O := O)) acting A A' (Eq (α := ε)) (R op) (.call op)
              (.call op) :=
            act (ha op)
          exact bind (lift hcall) hrest
      | emit value => exact bind emit fun _ _ _ => ih () (hnext ())
      | fork tasks =>
          have htask : List.Forall₂ (Alike (acting (O := O)) acting A A' Eq Eq) tasks tasks :=
            List.forall₂_same.mpr fun task hm => of_indifferent (htasks task hm) ha
          refine bind (fork htask) fun outcomes outcomes' hsame => ?_
          obtain rfl : outcomes = outcomes' :=
            List.forall₂_eq_eq_eq ▸ hsame.imp fun _ _ h => same_eq h
          exact ih outcomes (hnext outcomes)

end Alike

end Interaction

import PerpetuaCore.Interaction.Erasure
import PerpetuaCore.Interaction.Relational

namespace Interaction

variable {S : Signature} {N O O' V ε τ α α' β β' : Type}

def Entry.plain : Entry S (N ⊕ O) → Option (Entry S O)
  | .act op answer => some (.act op answer)
  | .emit (.inl _) => none
  | .emit (.inr value) => some (.emit value)

def Entry.unnoted : Entry S O → Option (Entry S (N ⊕ O))
  | .act op answer => some (.act op answer)
  | .emit value => some (.emit (.inr value))

-- A trace in which notes are taken, as the consumer sees it.
def plain (t : Trace S (N ⊕ O)) : Trace S O := t.filterMap Entry.plain

def notes (t : Trace S (N ⊕ O)) : List N := (observations t).filterMap Sum.getLeft?

@[simp] theorem plain_append (s t : Trace S (N ⊕ O)) : plain (s ++ t) = plain s ++ plain t :=
  List.filterMap_append

@[simp] theorem notes_append (s t : Trace S (N ⊕ O)) : notes (s ++ t) = notes s ++ notes t := by
  rw [notes, observations_append, List.filterMap_append]
  rfl

theorem observations_plain (t : Trace S (N ⊕ O)) :
    observations (plain t) = (observations t).filterMap Sum.getRight? := by
  induction t with
  | nil => rfl
  | cons entry t ih =>
      cases entry with
      | act op answer => exact ih
      | emit value =>
          cases value with
          | inl n => exact ih
          | inr value => exact congrArg (value :: ·) ih

namespace Prog

def plain : Prog (Gen S (N ⊕ O) ε τ) ε α → Prog (Gen S O ε τ) ε α
  | ret value => ret value
  | raise error => raise error
  | ask (.act op) next => ask (S := Gen S O ε τ) (.act op) fun answer => (next answer).plain
  | ask (.emit (.inl _)) next => (next ()).plain
  | ask (.emit (.inr value)) next => ask (S := Gen S O ε τ) (.emit value) fun _ => (next ()).plain
  | ask (.fork tasks) next =>
      ask (S := Gen S O ε τ) (.fork tasks) fun outcomes => (next outcomes).plain

-- Runs `p` and notes of its outcome what `describe` says.
def decided (describe : Except ε α → N) (p : Prog S ε α) : Prog (Gen S (N ⊕ O) ε τ) ε α :=
  p.attempt.lift.bind fun outcome =>
    (emit (.inl (describe outcome))).bind fun _ => ofExcept outcome

theorem plain_bind (p : Prog (Gen S (N ⊕ O) ε τ) ε α) (f : α → Prog (Gen S (N ⊕ O) ε τ) ε β) :
    (p.bind f).plain = p.plain.bind fun value => (f value).plain := by
  induction p with
  | ret => rfl
  | raise => rfl
  | ask op next ih =>
      cases op with
      | act op => exact congrArg (ask _) (funext ih)
      | emit value =>
          cases value with
          | inl n => exact ih ()
          | inr value => exact congrArg (ask _) (funext fun _ => ih ())
      | fork tasks => exact congrArg (ask _) (funext ih)

theorem plain_lift (p : Prog S ε α) :
    (p.lift : Prog (Gen S (N ⊕ O) ε τ) ε α).plain = p.lift := by
  induction p with
  | ret => rfl
  | raise => rfl
  | ask op next ih => exact congrArg (ask _) (funext ih)

theorem plain_ofExcept (x : Except ε α) :
    (ofExcept x : Prog (Gen S (N ⊕ O) ε τ) ε α).plain = ofExcept x := by
  cases x <;> rfl

theorem plain_emitAll (f : β → O) (xs : List β) :
    (xs.forM fun x => (emit (.inr (f x)) : Prog (Gen S (N ⊕ O) ε τ) ε Unit)).plain =
      xs.forM fun x => (emit (f x) : Prog (Gen S O ε τ) ε Unit) := by
  induction xs with
  | nil => rfl
  | cons x rest ih => exact congrArg (ask _) (funext fun _ => ih)

theorem attempt_bind_ofExcept (p : Prog S ε α) : p.attempt.bind ofExcept = p := by
  induction p with
  | ret => rfl
  | raise => rfl
  | ask op next ih => exact congrArg (ask op) (funext ih)

theorem lift_bind (p : Prog S ε α) (f : α → Prog S ε β) :
    ((p.bind f).lift : Prog (Gen S O ε τ) ε β) = p.lift.bind fun value => (f value).lift := by
  induction p with
  | ret => rfl
  | raise => rfl
  | ask op next ih => exact congrArg (ask _) (funext ih)

theorem lift_ofExcept (x : Except ε α) :
    ((ofExcept x : Prog S ε α).lift : Prog (Gen S O ε τ) ε α) = ofExcept x := by
  cases x <;> rfl

theorem decided_ofExcept (describe : Except ε α → N) (x : Except ε α) :
    ((ofExcept x).decided describe : Prog (Gen S (N ⊕ O) ε τ) ε α) =
      (emit (.inl (describe x))).bind fun _ => ofExcept x := by
  cases x <;> rfl

theorem plain_decided (describe : Except ε α → N) (p : Prog S ε α) :
    (p.decided describe : Prog (Gen S (N ⊕ O) ε τ) ε α).plain = p.lift := by
  have hrest : ∀ outcome : Except ε α,
      ((emit (.inl (describe outcome)) : Prog (Gen S (N ⊕ O) ε τ) ε Unit).bind fun _ =>
        ofExcept outcome).plain = (ofExcept outcome : Prog S ε α).lift :=
    fun outcome => (plain_ofExcept outcome).trans (lift_ofExcept outcome).symm
  rw [decided, plain_bind, plain_lift]
  simp only [hrest]
  rw [← lift_bind, attempt_bind_ofExcept]

end Prog

section Retold

-- What a program without observations does has nothing to do with those of others.
theorem exec_retold (f : Entry S O → Option (Entry S O'))
    (hf : ∀ op answer, f (.act op answer) = some (.act op answer))
    {p : Prog S ε α} {t : Trace S O} {o : Except ε α} (h : Exec acting p t o) :
    Exec acting p (t.filterMap f) o := by
  induction h with
  | ret value => exact .ret value
  | raise error => exact .raise error
  | @ask op next s t answer o hop _ ih =>
      obtain rfl : s = [.act op answer] := hop
      rw [List.singleton_append, List.filterMap_cons_some (hf op answer)]
      exact exec_act ih

theorem interleaved_retold (f : Entry S O → Option (Entry S O'))
    (hf : ∀ op answer, f (.act op answer) = some (.act op answer)) {ps : List (Prog S ε τ)}
    {t : Trace S O} {os : List (Except ε τ)} (h : Interleaved acting ps t os) :
    Interleaved acting ps (t.filterMap f) os := by
  induction h with
  | nil => exact .nil
  | cons hp _ hu ih => exact .cons (exec_retold f hf hp) ih hu.filterMap

end Retold

theorem exec_plain {p : Prog (Gen S (N ⊕ O) ε τ) ε α} {t : Trace S (N ⊕ O)} {o : Except ε α}
    (h : Exec generating p t o) : Exec generating p.plain (plain t) o := by
  induction h with
  | ret value => exact .ret value
  | raise error => exact .raise error
  | @ask op next s t answer o hop _ ih =>
      rw [plain_append]
      cases op with
      | act op =>
          obtain rfl : s = [.act op answer] := hop
          exact exec_gen_act ih
      | emit value =>
          obtain rfl : s = [.emit value] := hop
          cases value with
          | inl n => exact ih
          | inr value => exact exec_gen_emit ih
      | fork tasks =>
          have hretold : Interleaved acting tasks (plain s) answer :=
            interleaved_retold Entry.plain (fun _ _ => rfl) hop
          exact .ask hretold ih

-- Every run is one in which notes could have been taken.
theorem exec_noted {p : Prog (Gen S (N ⊕ O) ε τ) ε α} {s : Trace S O} {o : Except ε α}
    (h : Exec generating p.plain s o) : ∃ t, Exec generating p t o ∧ plain t = s := by
  induction p generalizing s with
  | ret value =>
      obtain ⟨rfl, rfl⟩ := exec_ret h
      exact ⟨[], .ret value, rfl⟩
  | raise error =>
      obtain ⟨rfl, rfl⟩ := exec_raise h
      exact ⟨[], .raise error, rfl⟩
  | ask op next ih =>
      cases op with
      | act op =>
          cases h with
          | @ask _ _ s u answer _ hop hnext =>
              obtain rfl : s = [.act op answer] := hop
              obtain ⟨t, ht, rfl⟩ := ih answer hnext
              exact ⟨.act op answer :: t, exec_gen_act ht, rfl⟩
      | emit value =>
          cases value with
          | inl n =>
              obtain ⟨t, ht, rfl⟩ := ih () h
              exact ⟨.emit (.inl n) :: t, exec_gen_emit ht, rfl⟩
          | inr value =>
              cases h with
              | @ask _ _ s u answer _ hop hnext =>
                  obtain rfl : s = [.emit value] := hop
                  obtain ⟨t, ht, rfl⟩ := ih () hnext
                  exact ⟨.emit (.inr value) :: t, exec_gen_emit ht, rfl⟩
      | fork tasks =>
          cases h with
          | @ask _ _ s u outcomes _ hop hnext =>
              obtain ⟨t, ht, rfl⟩ := ih outcomes hnext
              let retold : Trace S (N ⊕ O) := s.filterMap Entry.unnoted
              have hretold : Interleaved acting tasks retold outcomes :=
                interleaved_retold Entry.unnoted (fun _ _ => rfl) hop
              have hback : plain retold = s := by
                rw [plain, List.filterMap_filterMap]
                refine (List.filterMap_congr fun entry _ => ?_).trans List.filterMap_some
                cases entry <;> rfl
              exact ⟨retold ++ t, .ask hretold ht, by rw [plain_append, hback]⟩

-- Two programs that take notes enough: as far as these are the same the programs show the same,
-- up to `view`, and end alike.
def Tracks (view : O → V) (R : α → β → Prop) (p : Prog (Gen S (N ⊕ O) ε τ) ε α)
    (q : Prog (Gen S (N ⊕ O) ε τ) ε β) : Prop :=
  ∀ t o t' o' k k', Exec generating p t o → Exec generating q t' o' → notes t ++ k = notes t' ++ k' →
    (observations (plain t)).map view = (observations (plain t')).map view ∧ k = k' ∧
      Same (fun _ _ => True) R o o'

namespace Tracks

variable {view : O → V}

theorem ret {R : α → β → Prop} {value : α} {value' : β} (h : R value value') :
    Tracks view R (.ret value : Prog (Gen S (N ⊕ O) ε τ) ε α) (.ret value') := by
  intro t o t' o' k k' he he' hk
  obtain ⟨rfl, rfl⟩ := exec_ret he
  obtain ⟨rfl, rfl⟩ := exec_ret he'
  exact ⟨rfl, hk, .ok h⟩

theorem raise {R : α → β → Prop} {error error' : ε} :
    Tracks view R (.raise error : Prog (Gen S (N ⊕ O) ε τ) ε α) (.raise error') := by
  intro t o t' o' k k' he he' hk
  obtain ⟨rfl, rfl⟩ := exec_raise he
  obtain ⟨rfl, rfl⟩ := exec_raise he'
  exact ⟨rfl, hk, .error trivial⟩

theorem ofExcept {R : α → β → Prop} {x : Except ε α} {y : Except ε β}
    (h : Same (fun _ _ => True) R x y) :
    Tracks view R (.ofExcept x : Prog (Gen S (N ⊕ O) ε τ) ε α) (.ofExcept y) := by
  cases h with
  | ok h => exact ret h
  | error _ => exact raise

theorem bind {R : α → α' → Prop} {R' : β → β' → Prop} {p : Prog (Gen S (N ⊕ O) ε τ) ε α}
    {q : Prog (Gen S (N ⊕ O) ε τ) ε α'} {f : α → Prog (Gen S (N ⊕ O) ε τ) ε β}
    {f' : α' → Prog (Gen S (N ⊕ O) ε τ) ε β'} (hp : Tracks view R p q)
    (hf : ∀ value value', R value value' → Tracks view R' (f value) (f' value')) :
    Tracks view R' (p.bind f) (q.bind f') := by
  intro t o t' o' k k' he he' hk
  rcases exec_bind he with ⟨s, u, value, rfl, hs, hu⟩ | ⟨error, hs, rfl⟩ <;>
    rcases exec_bind he' with ⟨s', u', value', rfl, hs', hu'⟩ | ⟨error', hs', rfl⟩
  · rw [notes_append, notes_append, List.append_assoc, List.append_assoc] at hk
    obtain ⟨hshown, hrest, ⟨hv⟩⟩ := hp s _ s' _ _ _ hs hs' hk
    obtain ⟨hshown', hk, hsame⟩ := hf value value' hv u o u' o' k k' hu hu' hrest
    simp only [plain_append, observations_append, List.map_append]
    exact ⟨by rw [hshown, hshown'], hk, hsame⟩
  · rw [notes_append, List.append_assoc] at hk
    obtain ⟨-, -, ⟨⟩⟩ := hp s _ t' _ _ _ hs hs' hk
  · rw [notes_append, List.append_assoc] at hk
    obtain ⟨-, -, ⟨⟩⟩ := hp t _ s' _ _ _ hs hs' hk
  · obtain ⟨hshown, hk, ⟨⟩ | ⟨hx⟩⟩ := hp t _ t' _ k k' hs hs' hk
    exact ⟨hshown, hk, .error hx⟩

-- From a note on, the two programs need to go together only where it is the same.
theorem note {R : α → β → Prop} {n n' : N} {p : Prog (Gen S (N ⊕ O) ε τ) ε α}
    {q : Prog (Gen S (N ⊕ O) ε τ) ε β} (h : n = n' → Tracks view R p q) :
    Tracks view R ((Prog.emit (.inl n)).bind fun _ => p) ((Prog.emit (.inl n')).bind fun _ => q) := by
  intro t o t' o' k k' he he' hk
  cases he with
  | ask hop hnext =>
      cases he' with
      | ask hop' hnext' =>
          cases hop
          cases hop'
          obtain ⟨hn, hk⟩ := List.cons.inj hk
          obtain ⟨hshown, hrest, hsame⟩ := h hn _ _ _ _ k k' hnext hnext' hk
          exact ⟨hshown, hrest, hsame⟩

theorem emit {value value' : O} (h : view value = view value') :
    Tracks view (fun _ _ => True) (.emit (.inr value) : Prog (Gen S (N ⊕ O) ε τ) ε Unit)
      (.emit (.inr value')) := by
  intro t o t' o' k k' he he' hk
  cases he with
  | ask hop hnext =>
      cases he' with
      | ask hop' hnext' =>
          obtain ⟨rfl, rfl⟩ := exec_ret hnext
          obtain ⟨rfl, rfl⟩ := exec_ret hnext'
          cases hop
          cases hop'
          exact ⟨congrArg ([·]) h, hk, .ok trivial⟩

theorem emitAll {f : β → O} {f' : β' → O} {xs : List β} {ys : List β'}
    (h : xs.map (fun x => view (f x)) = ys.map fun y => view (f' y)) :
    Tracks view (fun _ _ => True)
      (xs.forM fun x => (.emit (.inr (f x)) : Prog (Gen S (N ⊕ O) ε τ) ε Unit))
      (ys.forM fun y => .emit (.inr (f' y))) := by
  induction xs generalizing ys with
  | nil =>
      cases ys with
      | nil => exact ret trivial
      | cons y ys => cases h
  | cons x xs ih =>
      cases ys with
      | nil => cases h
      | cons y ys =>
          obtain ⟨hhead, htail⟩ := List.cons.inj h
          exact bind (emit hhead) fun _ _ _ => ih htail

-- What shows nothing and takes no notes.
theorem lift {R : α → β → Prop} {p : Prog S ε α} {q : Prog S ε β}
    (h : ∀ (t : Trace S (N ⊕ O)) o (t' : Trace S (N ⊕ O)) o', Exec acting p t o →
      Exec acting q t' o' → Same (fun _ _ => True) R o o') :
    Tracks view R (p.lift : Prog (Gen S (N ⊕ O) ε τ) ε α) q.lift := by
  intro t o t' o' k k' he he' hk
  have hobs := exec_acting_observations (exec_lift he)
  have hobs' := exec_acting_observations (exec_lift he')
  rw [notes, notes, hobs, hobs'] at hk
  rw [observations_plain, observations_plain, hobs, hobs']
  exact ⟨rfl, hk, h t o t' o' (exec_lift he) (exec_lift he')⟩

theorem act {R : α → β → Prop} {op op' : S.Op} {next : S.Ans op → Prog (Gen S (N ⊕ O) ε τ) ε α}
    {next' : S.Ans op' → Prog (Gen S (N ⊕ O) ε τ) ε β}
    (h : ∀ answer answer', Tracks view R (next answer) (next' answer')) :
    Tracks view R (.ask (S := Gen S (N ⊕ O) ε τ) (.act op) next)
      (.ask (S := Gen S (N ⊕ O) ε τ) (.act op') next') := by
  intro t o t' o' k k' he he' hk
  cases he with
  | ask hop hnext =>
      cases he' with
      | ask hop' hnext' =>
          cases hop
          cases hop'
          obtain ⟨hshown, hrest, hsame⟩ := h _ _ _ _ _ _ k k' hnext hnext' hk
          exact ⟨hshown, hrest, hsame⟩

theorem fork {ps qs : List (Prog S ε τ)} :
    Tracks view (fun _ _ => True) (.fork ps : Prog (Gen S (N ⊕ O) ε τ) ε _) (.fork qs) := by
  intro t o t' o' k k' he he' hk
  cases he with
  | @ask _ _ s u os _ hop hnext =>
      cases he' with
      | @ask _ _ s' u' os' _ hop' hnext' =>
          obtain ⟨rfl, rfl⟩ := exec_ret hnext
          obtain ⟨rfl, rfl⟩ := exec_ret hnext'
          have hps : Interleaved acting ps s os := hop
          have hqs : Interleaved acting qs s' os' := hop'
          have hobs := interleaved_observations hps
          have hobs' := interleaved_observations hqs
          rw [List.append_nil, List.append_nil] at *
          rw [notes, notes, hobs, hobs'] at hk
          rw [observations_plain, observations_plain, hobs, hobs']
          exact ⟨rfl, hk, .ok trivial⟩

theorem decided {R : α → β → Prop} {describe : Except ε α → N} {describe' : Except ε β → N}
    {p : Prog S ε α} {q : Prog S ε β}
    (h : ∀ x y, describe x = describe' y → Same (fun _ _ => True) R x y) :
    Tracks view R (p.decided describe : Prog (Gen S (N ⊕ O) ε τ) ε α) (q.decided describe') := by
  have hattempt : Tracks view (fun _ _ => True)
      (p.attempt.lift : Prog (Gen S (N ⊕ O) ε τ) ε (Except ε α)) q.attempt.lift := by
    refine lift fun t o t' o' he he' => ?_
    obtain ⟨outcome, rfl⟩ := exec_attempt he
    obtain ⟨outcome', rfl⟩ := exec_attempt he'
    exact .ok trivial
  exact bind hattempt fun x y _ => note fun hn => ofExcept (h x y hn)

theorem decided_ofExcept {R : α → β → Prop} {describe : Except ε α → N}
    {describe' : Except ε β → N} {x : Except ε α} {y : Except ε β}
    (h : describe x = describe' y → Same (fun _ _ => True) R x y) :
    Tracks view R ((Prog.ofExcept x).decided describe : Prog (Gen S (N ⊕ O) ε τ) ε α)
      ((Prog.ofExcept y).decided describe') := by
  rw [Prog.decided_ofExcept, Prog.decided_ofExcept]
  exact note fun hn => ofExcept (h hn)

end Tracks

end Interaction

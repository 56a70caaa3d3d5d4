import PerpetuaCore.Interaction.Consumer

namespace Interaction

variable {S : Signature} {E O ε τ α β : Type}

-- Operations whose answer is known beforehand.
abbrev Settles (S : Signature) := (op : S.Op) → Option (S.Ans op)

namespace Prog

-- The program with those answers filled in.
def assume (settles : Settles S) : Prog S ε α → Prog S ε α
  | ret value => ret value
  | raise error => raise error
  | ask op next =>
      match settles op with
      | some answer => (next answer).assume settles
      | none => ask op fun answer => (next answer).assume settles

def assumeGen (settles : Settles S) : Prog (Gen S O ε τ) ε α → Prog (Gen S O ε τ) ε α
  | ret value => ret value
  | raise error => raise error
  | ask (.act op) next =>
      match settles op with
      | some answer => (next answer).assumeGen settles
      | none => ask (S := Gen S O ε τ) (.act op) fun answer => (next answer).assumeGen settles
  | ask (.emit value) next => ask (S := Gen S O ε τ) (.emit value) fun _ => (next ()).assumeGen settles
  | ask (.fork tasks) next =>
      ask (S := Gen S O ε τ) (.fork (tasks.map (assume settles))) fun outcomes =>
        (next outcomes).assumeGen settles

variable {settles : Settles S}

theorem assume_bind {p : Prog S ε α} {f : α → Prog S ε β} :
    (p.bind f).assume settles = (p.assume settles).bind fun value => (f value).assume settles := by
  induction p with
  | ret => rfl
  | raise => rfl
  | ask op next ih =>
      simp only [bind, assume]
      cases settles op with
      | some answer => exact ih answer
      | none => exact congrArg (ask op) (funext ih)

theorem assume_tryCatch {p : Prog S ε α} {handler : ε → Prog S ε α} :
    (p.tryCatch handler).assume settles =
      (p.assume settles).tryCatch fun error => (handler error).assume settles := by
  induction p with
  | ret => rfl
  | raise => rfl
  | ask op next ih =>
      simp only [tryCatch, assume]
      cases settles op with
      | some answer => exact ih answer
      | none => exact congrArg (ask op) (funext ih)

theorem assume_attempt {p : Prog S ε α} :
    p.attempt.assume settles = (p.assume settles).attempt := by
  rw [attempt, assume_tryCatch, assume_bind]
  rfl

theorem assume_ofExcept (x : Except ε α) :
    (ofExcept x : Prog S ε α).assume settles = ofExcept x := by
  cases x <;> rfl

-- A program that asks nothing of what is settled stays as it is.
theorem assume_of_asks {p : Prog S ε α} (h : p.Asks fun op => settles op = none) :
    p.assume settles = p := by
  induction p with
  | ret => rfl
  | raise => rfl
  | ask op next ih =>
      obtain ⟨hop, hnext⟩ := h
      rw [assume, hop]
      exact congrArg (ask op) (funext fun answer => ih answer (hnext answer))

theorem assumeGen_bind {p : Prog (Gen S O ε τ) ε α} {f : α → Prog (Gen S O ε τ) ε β} :
    (p.bind f).assumeGen settles =
      (p.assumeGen settles).bind fun value => (f value).assumeGen settles := by
  induction p with
  | ret => rfl
  | raise => rfl
  | ask op next ih =>
      cases op with
      | act op =>
          simp only [bind, assumeGen]
          cases settles op with
          | some answer => exact ih answer
          | none => exact congrArg (ask _) (funext ih)
      | emit value => exact congrArg (ask _) (funext fun _ => ih ())
      | fork tasks => exact congrArg (ask _) (funext ih)

theorem assumeGen_lift {p : Prog S ε α} :
    (p.lift : Prog (Gen S O ε τ) ε α).assumeGen settles = (p.assume settles).lift := by
  induction p with
  | ret => rfl
  | raise => rfl
  | ask op next ih =>
      simp only [lift, assumeGen, assume]
      cases settles op with
      | some answer => exact ih answer
      | none => exact congrArg (ask _) (funext ih)

theorem assumeGen_ofExcept (x : Except ε α) :
    (ofExcept x : Prog (Gen S O ε τ) ε α).assumeGen settles = ofExcept x := by
  cases x <;> rfl

theorem assumeGen_emitAll {f : β → O} {xs : List β} :
    (xs.forM fun x => (emit (f x) : Prog (Gen S O ε τ) ε Unit)).assumeGen settles =
      xs.forM fun x => (emit (f x) : Prog (Gen S O ε τ) ε Unit) := by
  induction xs with
  | nil => rfl
  | cons x rest ih => exact congrArg (ask _) (funext fun _ => ih)

end Prog

-- The events that are not settled.
def erase (settles : Settles S) (t : Trace S O) : Trace S O :=
  t.filter fun
    | .act op _ => (settles op).isNone
    | .emit _ => true

-- What is settled was answered accordingly.
def Agrees (settles : Settles S) (t : Trace S O) : Prop :=
  ∀ op answer, .act op answer ∈ t → ∀ known ∈ settles op, answer = known

section Erase

variable {settles : Settles S} {s t : Trace S O}

@[simp] theorem erase_append : erase settles (s ++ t) = erase settles s ++ erase settles t :=
  List.filter_append ..

@[simp] theorem erase_emit (value : O) :
    erase settles (.emit value :: t) = .emit value :: erase settles t := rfl

theorem erase_settled {op : S.Op} {answer known : S.Ans op} (h : settles op = some known) :
    erase settles (.act op answer :: t) = erase settles t := by
  simp [erase, h]

theorem erase_open {op : S.Op} {answer : S.Ans op} (h : settles op = none) :
    erase settles (.act op answer :: t) = .act op answer :: erase settles t := by
  simp [erase, h]

theorem observations_erase : observations (erase settles t) = observations t := by
  induction t with
  | nil => rfl
  | cons entry t ih =>
      cases entry with
      | emit value => exact congrArg (value :: ·) ih
      | act op answer =>
          cases h : settles op with
          | none => rw [erase_open h, observations_act, observations_act, ih]
          | some known => rw [erase_settled h, observations_act, ih]

theorem agrees_append : Agrees settles (s ++ t) ↔ Agrees settles s ∧ Agrees settles t := by
  simp only [Agrees, List.mem_append]
  constructor
  · intro h
    exact ⟨fun op answer hm => h op answer (.inl hm), fun op answer hm => h op answer (.inr hm)⟩
  · rintro ⟨hs, ht⟩ op answer (hm | hm)
    · exact hs op answer hm
    · exact ht op answer hm

theorem agrees_cons {entry : Entry S O} :
    Agrees settles (entry :: t) ↔ Agrees settles [entry] ∧ Agrees settles t :=
  agrees_append (s := [entry])

end Erase

namespace Shuffle

variable {p : E → Bool} {s t u : List E}

theorem filterMap {E' : Type} {g : E → Option E'} (h : Shuffle s t u) :
    Shuffle (s.filterMap g) (t.filterMap g) (u.filterMap g) := by
  induction h with
  | nil => exact .nil
  | @left e _ _ _ _ ih =>
      cases he : g e with
      | some e' => simpa [he] using ih.left
      | none => simpa [he] using ih
  | @right e _ _ _ _ ih =>
      cases he : g e with
      | some e' => simpa [he] using ih.right
      | none => simpa [he] using ih

theorem filter (h : Shuffle s t u) : Shuffle (s.filter p) (t.filter p) (u.filter p) := by
  rw [← List.filterMap_eq_filter]
  exact h.filterMap

-- What was filtered out of the parts can be put back into the whole.
theorem of_filter (h : Shuffle (s.filter p) (t.filter p) u) :
    ∃ u', Shuffle s t u' ∧ u'.filter p = u := by
  induction s generalizing t u with
  | nil =>
      induction t generalizing u with
      | nil =>
          cases h
          exact ⟨[], .nil, rfl⟩
      | cons e t ih =>
          cases he : p e with
          | false =>
              rw [List.filter_cons_of_neg (by simp [he])] at h
              obtain ⟨u', hu', hfilter⟩ := ih h
              exact ⟨e :: u', hu'.right, by simpa [he] using hfilter⟩
          | true =>
              rw [List.filter_cons_of_pos he] at h
              cases h with
              | right h =>
                  obtain ⟨u', hu', hfilter⟩ := ih h
                  exact ⟨e :: u', hu'.right, by simpa [he] using hfilter⟩
  | cons e s ihs =>
      cases he : p e with
      | false =>
          rw [List.filter_cons_of_neg (by simp [he])] at h
          obtain ⟨u', hu', hfilter⟩ := ihs h
          exact ⟨e :: u', hu'.left, by simpa [he] using hfilter⟩
      | true =>
          rw [List.filter_cons_of_pos he] at h
          induction t generalizing u with
          | nil =>
              cases h with
              | left h =>
                  obtain ⟨u', hu', hfilter⟩ := ihs h
                  exact ⟨e :: u', hu'.left, by simpa [he] using hfilter⟩
          | cons e' t iht =>
              cases he' : p e' with
              | false =>
                  rw [List.filter_cons_of_neg (by simp [he'])] at h
                  obtain ⟨u', hu', hfilter⟩ := iht h
                  exact ⟨e' :: u', hu'.right, by simpa [he'] using hfilter⟩
              | true =>
                  rw [List.filter_cons_of_pos he'] at h
                  cases h with
                  | left h =>
                      rw [← List.filter_cons_of_pos he'] at h
                      obtain ⟨u', hu', hfilter⟩ := ihs h
                      exact ⟨e :: u', hu'.left, by simpa [he] using hfilter⟩
                  | right h =>
                      obtain ⟨u', hu', hfilter⟩ := iht h
                      exact ⟨e' :: u', hu'.right, by simpa [he'] using hfilter⟩

end Shuffle

section Acts

variable {t : Trace S O} {op : S.Op} {answer : S.Ans op}

theorem exec_act {next : S.Ans op → Prog S ε α} {o : Except ε α} (h : Exec acting (next answer) t o) :
    Exec acting (.ask op next) (.act op answer :: t) o :=
  Exec.ask (s := [Entry.act op answer]) rfl h

theorem exec_gen_act {next : S.Ans op → Prog (Gen S O ε τ) ε α} {o : Except ε α}
    (h : Exec generating (next answer) t o) :
    Exec generating (.ask (S := Gen S O ε τ) (.act op) next) (.act op answer :: t) o :=
  Exec.ask (s := [Entry.act op answer]) rfl h

theorem exec_gen_emit {value : O} {next : Unit → Prog (Gen S O ε τ) ε α} {o : Except ε α}
    (h : Exec generating (next ()) t o) :
    Exec generating (.ask (S := Gen S O ε τ) (.emit value) next) (.emit value :: t) o :=
  Exec.ask (s := [Entry.emit value]) rfl h

end Acts

section Exec

variable {settles : Settles S} {s t : Trace S O}

theorem exec_erase {p : Prog S ε α} {o : Except ε α} (h : Exec acting p t o)
    (ha : Agrees settles t) : Exec acting (p.assume settles) (erase settles t) o := by
  induction h with
  | ret value => exact .ret value
  | raise error => exact .raise error
  | @ask op next s t answer o hop _ ih =>
      obtain rfl : s = [.act op answer] := hop
      obtain ⟨hhead, htail⟩ := agrees_append.mp ha
      rw [erase_append, Prog.assume]
      cases hop : settles op with
      | some known =>
          obtain rfl := hhead op answer List.mem_cons_self known hop
          rw [erase_settled hop]
          exact ih htail
      | none =>
          rw [erase_open hop]
          exact exec_act (ih htail)

theorem agrees_settled {op : S.Op} {answer : S.Ans op} (h : settles op = some answer) :
    Agrees settles [(.act op answer : Entry S O)] := by
  intro op' answer' hm known hknown
  cases List.mem_singleton.mp hm
  exact Option.some.inj (h.symm.trans hknown)

theorem agrees_open {op : S.Op} {answer : S.Ans op} (h : settles op = none) :
    Agrees settles [(.act op answer : Entry S O)] := by
  intro op' answer' hm known hknown
  cases List.mem_singleton.mp hm
  cases h.symm.trans hknown

theorem exec_assumed {p : Prog S ε α} {o : Except ε α} (h : Exec acting (p.assume settles) s o) :
    ∃ t, Exec acting p t o ∧ Agrees settles t ∧ erase settles t = s := by
  induction p generalizing s with
  | ret value =>
      obtain ⟨rfl, rfl⟩ := exec_ret h
      exact ⟨[], .ret value, nofun, rfl⟩
  | raise error =>
      obtain ⟨rfl, rfl⟩ := exec_raise h
      exact ⟨[], .raise error, nofun, rfl⟩
  | ask op next ih =>
      rw [Prog.assume] at h
      cases hop : settles op with
      | some answer =>
          rw [hop] at h
          obtain ⟨t, ht, ha, herase⟩ := ih answer h
          exact ⟨.act op answer :: t, exec_act ht, agrees_cons.mpr ⟨agrees_settled hop, ha⟩,
            (erase_settled hop).trans herase⟩
      | none =>
          rw [hop] at h
          cases h with
          | @ask _ _ s u answer _ hs hnext =>
              obtain rfl : s = [.act op answer] := hs
              obtain ⟨t, ht, ha, rfl⟩ := ih answer hnext
              exact ⟨.act op answer :: t, exec_act ht, agrees_cons.mpr ⟨agrees_open hop, ha⟩,
                erase_open hop⟩

theorem interleaved_erase {ps : List (Prog S ε τ)} {os : List (Except ε τ)}
    (h : Interleaved acting ps t os) (ha : Agrees settles t) :
    Interleaved acting (ps.map (Prog.assume settles)) (erase settles t) os := by
  induction h with
  | nil => exact .nil
  | cons hp _ hu ih =>
      have hs := exec_erase hp fun op answer hm => ha op answer (hu.sublist_left.subset hm)
      exact .cons hs (ih fun op answer hm => ha op answer (hu.sublist_right.subset hm)) hu.filter

theorem interleaved_assumed {ps : List (Prog S ε τ)} {os : List (Except ε τ)}
    (h : Interleaved acting (ps.map (Prog.assume settles)) s os) :
    ∃ t, Interleaved acting ps t os ∧ Agrees settles t ∧ erase settles t = s := by
  induction ps generalizing s os with
  | nil =>
      cases h
      exact ⟨[], .nil, nofun, rfl⟩
  | cons p ps ih =>
      cases h with
      | cons hp hps hu =>
          obtain ⟨s', hs', has, rfl⟩ := exec_assumed hp
          obtain ⟨t', ht', hat, rfl⟩ := ih hps
          obtain ⟨u, hshuffle, rfl⟩ := Shuffle.of_filter hu
          refine ⟨u, .cons hs' ht' hshuffle, fun op answer hm => ?_, rfl⟩
          rcases List.mem_append.mp (hshuffle.perm.mem_iff.mp hm) with hm | hm
          · exact has op answer hm
          · exact hat op answer hm

-- A run whose settled operations were answered accordingly, without these.
theorem exec_generating_erase {p : Prog (Gen S O ε τ) ε α} {o : Except ε α}
    (h : Exec generating p t o) (ha : Agrees settles t) :
    Exec generating (p.assumeGen settles) (erase settles t) o := by
  induction h with
  | ret value => exact .ret value
  | raise error => exact .raise error
  | @ask op next s t answer o hop _ ih =>
      obtain ⟨hhead, htail⟩ := agrees_append.mp ha
      have hrest := ih htail
      rw [erase_append]
      cases op with
      | act op =>
          obtain rfl : s = [.act op answer] := hop
          rw [Prog.assumeGen]
          cases hop : settles op with
          | some known =>
              obtain rfl := hhead op answer List.mem_cons_self known hop
              rw [erase_settled hop]
              exact hrest
          | none =>
              rw [erase_open hop]
              exact exec_gen_act hrest
      | emit value =>
          obtain rfl : s = [.emit value] := hop
          exact exec_gen_emit hrest
      | fork tasks => exact .ask (interleaved_erase hop hhead) hrest

-- Each run of what is left is such a run without the settled operations.
theorem exec_generating_assumed {p : Prog (Gen S O ε τ) ε α} {o : Except ε α}
    (h : Exec generating (p.assumeGen settles) s o) :
    ∃ t, Exec generating p t o ∧ Agrees settles t ∧ erase settles t = s := by
  induction p generalizing s with
  | ret value =>
      obtain ⟨rfl, rfl⟩ := exec_ret h
      exact ⟨[], .ret value, nofun, rfl⟩
  | raise error =>
      obtain ⟨rfl, rfl⟩ := exec_raise h
      exact ⟨[], .raise error, nofun, rfl⟩
  | ask op next ih =>
      cases op with
      | act op =>
          rw [Prog.assumeGen] at h
          cases hop : settles op with
          | some answer =>
              rw [hop] at h
              obtain ⟨t, ht, ha, herase⟩ := ih answer h
              exact ⟨.act op answer :: t, exec_gen_act ht, agrees_cons.mpr ⟨agrees_settled hop, ha⟩,
                (erase_settled hop).trans herase⟩
          | none =>
              rw [hop] at h
              cases h with
              | @ask _ _ s u answer _ hs hnext =>
                  obtain rfl : s = [.act op answer] := hs
                  obtain ⟨t, ht, ha, rfl⟩ := ih answer hnext
                  exact ⟨.act op answer :: t, exec_gen_act ht,
                    agrees_cons.mpr ⟨agrees_open hop, ha⟩, erase_open hop⟩
      | emit value =>
          cases h with
          | @ask _ _ s u answer _ hs hnext =>
              obtain rfl : s = [.emit value] := hs
              obtain ⟨t, ht, ha, rfl⟩ := ih () hnext
              refine ⟨.emit value :: t, exec_gen_emit ht, agrees_cons.mpr ⟨?_, ha⟩, rfl⟩
              intro op answer hm
              cases List.mem_singleton.mp hm
      | fork tasks =>
          cases h with
          | @ask _ _ s u outcomes _ hs hnext =>
              obtain ⟨t, ht, ha, rfl⟩ := interleaved_assumed hs
              obtain ⟨t', ht', ha', rfl⟩ := ih outcomes hnext
              exact ⟨t ++ t', .ask ht ht', agrees_append.mpr ⟨ha, ha'⟩, erase_append⟩

end Exec

-- Something bad is shown before anything else happens.
inductive Doomed (bad : Entry S O → Prop) : Prog (Gen S O ε τ) ε α → Prop
  | here {value : O} {next : Unit → Prog (Gen S O ε τ) ε α} (h : bad (.emit value)) :
      Doomed bad (.ask (S := Gen S O ε τ) (.emit value) next)
  | later {value : O} {next : Unit → Prog (Gen S O ε τ) ε α} (h : Doomed bad (next ())) :
      Doomed bad (.ask (S := Gen S O ε τ) (.emit value) next)

-- The first program is the second one as long as nothing bad happens; where the second goes on
-- to show something bad, the first may raise instead.
inductive Curtails (bad : Entry S O → Prop) :
    Prog (Gen S O ε τ) ε α → Prog (Gen S O ε τ) ε α → Prop
  | ret (value : α) : Curtails bad (.ret value) (.ret value)
  | raise (error : ε) : Curtails bad (.raise error) (.raise error)
  | act {op : S.Op} {next next' : S.Ans op → Prog (Gen S O ε τ) ε α}
      (h : ∀ answer, ¬bad (.act op answer) → Curtails bad (next answer) (next' answer)) :
      Curtails bad (.ask (S := Gen S O ε τ) (.act op) next) (.ask (S := Gen S O ε τ) (.act op) next')
  | emit {value : O} {next next' : Unit → Prog (Gen S O ε τ) ε α}
      (h : Curtails bad (next ()) (next' ())) :
      Curtails bad (.ask (S := Gen S O ε τ) (.emit value) next)
        (.ask (S := Gen S O ε τ) (.emit value) next')
  | fork {tasks : List (Prog S ε τ)} {next next' : List (Except ε τ) → Prog (Gen S O ε τ) ε α}
      (h : ∀ outcomes, Curtails bad (next outcomes) (next' outcomes)) :
      Curtails bad (.ask (S := Gen S O ε τ) (.fork tasks) next)
        (.ask (S := Gen S O ε τ) (.fork tasks) next')
  | cut {error : ε} {p : Prog (Gen S O ε τ) ε α} (h : Doomed bad p) : Curtails bad (.raise error) p

section Curtails

variable {bad : Entry S O → Prop} {p q : Prog (Gen S O ε τ) ε α} {t : Trace S O} {o : Except ε α}

theorem Doomed.bind (h : Doomed bad p) (f : α → Prog (Gen S O ε τ) ε β) : Doomed bad (p.bind f) := by
  induction h with
  | here h => exact .here h
  | later _ ih => exact .later ih

theorem Doomed.exists_bad (h : Doomed bad p) (he : Exec generating p t o) : ∃ e ∈ t, bad e := by
  induction h generalizing t with
  | here h =>
      cases he with
      | ask hop _ =>
          cases hop
          exact ⟨_, List.mem_cons_self, h⟩
  | later _ ih =>
      cases he with
      | ask _ hnext =>
          obtain ⟨e, hm, hbad⟩ := ih hnext
          exact ⟨e, List.mem_append_right _ hm, hbad⟩

theorem Doomed.reaches (h : Doomed bad p) :
    ∃ shown : List O, ∃ rest, Reaches generating p (shown.map .emit) rest ∧
      ∃ value ∈ shown, bad (.emit value) := by
  induction h with
  | @here value next h =>
    exact ⟨[value], next (), .ask (s := [Entry.emit value]) rfl (.here (next ())), value,
      List.mem_cons_self, h⟩
  | @later value next _ ih =>
      obtain ⟨shown, rest, hreach, bad, hm, hbad⟩ := ih
      exact ⟨value :: shown, rest, .ask (s := [Entry.emit value]) rfl hreach, bad,
        List.mem_cons_of_mem _ hm, hbad⟩

theorem Curtails.refl (p : Prog (Gen S O ε τ) ε α) : Curtails bad p p := by
  induction p with
  | ret value => exact .ret value
  | raise error => exact .raise error
  | ask op next ih =>
      cases op with
      | act op => exact .act fun answer _ => ih answer
      | emit value => exact .emit (ih ())
      | fork tasks => exact .fork ih

theorem Curtails.bind {f g : α → Prog (Gen S O ε τ) ε β} (h : Curtails bad p q)
    (hf : ∀ value, Curtails bad (f value) (g value)) : Curtails bad (p.bind f) (q.bind g) := by
  induction h with
  | ret value => exact hf value
  | raise error => exact .raise error
  | act _ ih => exact .act fun answer hgood => ih answer hgood
  | emit _ ih => exact .emit ih
  | fork _ ih => exact .fork ih
  | cut h => exact .cut (h.bind g)

-- A run of the longer program in which nothing bad happens.
theorem Curtails.backward (h : Curtails bad p q) (he : Exec generating q t o)
    (hgood : ∀ e ∈ t, ¬bad e) : Exec generating p t o := by
  induction h generalizing t with
  | ret value => exact he
  | raise error => exact he
  | act _ ih =>
      cases he with
      | ask hop hnext =>
          rw [List.forall_mem_append] at hgood
          cases hop
          exact exec_gen_act (ih _ (hgood.1 _ List.mem_cons_self) hnext hgood.2)
  | emit _ ih =>
      cases he with
      | ask hop hnext =>
          rw [List.forall_mem_append] at hgood
          cases hop
          exact exec_gen_emit (ih hnext hgood.2)
  | fork _ ih =>
      cases he with
      | ask hop hnext =>
          rw [List.forall_mem_append] at hgood
          exact .ask hop (ih _ hnext hgood.2)
  | cut h =>
      obtain ⟨e, hm, hbad⟩ := h.exists_bad he
      exact absurd hbad (hgood e hm)

-- A run of the shorter program: the longer one has it too, or goes with it as far as to where
-- something bad has happened or is shown next.
theorem Curtails.forward (h : Curtails bad p q) (he : Exec generating p t o) :
    Exec generating q t o ∨ ∃ pre post, ∃ shown : List O, ∃ rest, t = pre ++ post ∧
      Reaches generating q (pre ++ shown.map .emit) rest ∧ ∃ e ∈ pre ++ shown.map .emit, bad e := by
  induction h generalizing t with
  | ret value => exact .inl he
  | raise error => exact .inl he
  | @act op next next' _ ih =>
      cases he with
      | @ask _ _ s u answer _ hop hnext =>
          obtain rfl : s = [.act op answer] := hop
          by_cases hbad : bad (.act op answer)
          · refine .inr ⟨[.act op answer], u, [], next' answer, rfl, ?_, _, List.mem_cons_self, hbad⟩
            exact .ask (s := [Entry.act op answer]) rfl (.here _)
          · rcases ih answer hbad hnext with hrest | ⟨pre, post, shown, rest, rfl, hreach, e, hm, hbad⟩
            · exact .inl (exec_gen_act hrest)
            · refine .inr ⟨.act op answer :: pre, post, shown, rest, rfl, ?_, e,
                List.mem_cons_of_mem _ hm, hbad⟩
              exact .ask (s := [Entry.act op answer]) rfl hreach
  | @emit value next next' _ ih =>
      cases he with
      | @ask _ _ s u answer _ hop hnext =>
          obtain rfl : s = [.emit value] := hop
          rcases ih hnext with hrest | ⟨pre, post, shown, rest, rfl, hreach, e, hm, hbad⟩
          · exact .inl (exec_gen_emit hrest)
          · refine .inr ⟨.emit value :: pre, post, shown, rest, rfl, ?_, e,
              List.mem_cons_of_mem _ hm, hbad⟩
            exact .ask (s := [Entry.emit value]) rfl hreach
  | @fork tasks next next' _ ih =>
      cases he with
      | @ask _ _ s u outcomes _ hop hnext =>
          rcases ih outcomes hnext with hrest | ⟨pre, post, shown, rest, rfl, hreach, e, hm, hbad⟩
          · exact .inl (.ask hop hrest)
          · refine .inr ⟨s ++ pre, post, shown, rest, (List.append_assoc ..).symm, ?_, e, ?_, hbad⟩
            · rw [List.append_assoc]
              exact .ask hop hreach
            · rw [List.append_assoc]
              exact List.mem_append_right _ hm
  | cut h =>
      obtain ⟨rfl, rfl⟩ := exec_raise he
      obtain ⟨shown, rest, hreach, value, hm, hbad⟩ := h.reaches
      exact .inr ⟨[], [], shown, rest, rfl, hreach, _, List.mem_map_of_mem hm, hbad⟩

end Curtails

end Interaction

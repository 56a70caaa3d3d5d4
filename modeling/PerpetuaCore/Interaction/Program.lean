import Mathlib.Data.List.Basic

namespace Interaction

-- The operations a program may issue, and what each can be answered with.
structure Signature where
  Op : Type
  Ans : Op → Type

-- A program is the tree of everything it may still do: it returns, it raises,
-- or it issues one operation and goes on from whatever answer it is given.
inductive Prog (S : Signature) (ε α : Type) where
  | ret (value : α)
  | raise (error : ε)
  | ask (op : S.Op) (next : S.Ans op → Prog S ε α)

namespace Prog

variable {S : Signature} {ε α β : Type}

def bind : Prog S ε α → (α → Prog S ε β) → Prog S ε β
  | ret value, f => f value
  | raise error, _ => raise error
  | ask op next, f => ask op fun answer => (next answer).bind f

-- Catching replaces a raise by the handler, wherever in the tree it stands.
def tryCatch : Prog S ε α → (ε → Prog S ε α) → Prog S ε α
  | ret value, _ => ret value
  | raise error, handler => handler error
  | ask op next, handler => ask op fun answer => (next answer).tryCatch handler

def call (op : S.Op) : Prog S ε (S.Ans op) :=
  ask op ret

def ofExcept : Except ε α → Prog S ε α
  | .ok value => ret value
  | .error error => raise error

instance : Monad (Prog S ε) where
  pure := ret
  bind := bind

-- The outcome of a program as a value; nothing is left to raise.
def attempt (p : Prog S ε α) : Prog S ε (Except ε α) :=
  (p.bind fun value => ret (.ok value)).tryCatch fun error => ret (.error error)

@[simp] theorem pure_eq (value : α) : (pure value : Prog S ε α) = ret value := rfl

@[simp] theorem bind_eq (p : Prog S ε α) (f : α → Prog S ε β) : p >>= f = p.bind f := rfl

@[simp] theorem ret_bind (value : α) (f : α → Prog S ε β) : (ret value).bind f = f value := rfl

@[simp] theorem raise_bind (error : ε) (f : α → Prog S ε β) :
    (raise error : Prog S ε α).bind f = raise error := rfl

-- Every operation the program may ever issue satisfies `P`.
def Asks (P : S.Op → Prop) : Prog S ε α → Prop
  | ret _ => True
  | raise _ => True
  | ask op next => P op ∧ ∀ answer, (next answer).Asks P

variable {P : S.Op → Prop}

theorem Asks.bind {p : Prog S ε α} {f : α → Prog S ε β} (hp : p.Asks P)
    (hf : ∀ value, (f value).Asks P) : (p.bind f).Asks P := by
  induction p with
  | ret value => exact hf value
  | raise => trivial
  | ask op next ih => exact ⟨hp.1, fun answer => ih answer (hp.2 answer)⟩

theorem Asks.tryCatch {p : Prog S ε α} {handler : ε → Prog S ε α} (hp : p.Asks P)
    (hhandler : ∀ error, (handler error).Asks P) : (p.tryCatch handler).Asks P := by
  induction p with
  | ret => trivial
  | raise error => exact hhandler error
  | ask op next ih => exact ⟨hp.1, fun answer => ih answer (hp.2 answer)⟩

theorem Asks.mono {P' : S.Op → Prop} {p : Prog S ε α} (hp : p.Asks P) (h : ∀ op, P op → P' op) :
    p.Asks P' := by
  induction p with
  | ret => trivial
  | raise => trivial
  | ask op next ih => exact ⟨h op hp.1, fun answer => ih answer (hp.2 answer)⟩

theorem Asks.call {op : S.Op} (h : P op) : (call op : Prog S ε (S.Ans op)).Asks P :=
  ⟨h, fun _ => trivial⟩

theorem Asks.ofExcept (x : Except ε α) : (ofExcept x : Prog S ε α).Asks P := by
  cases x <;> trivial

theorem Asks.attempt {p : Prog S ε α} (hp : p.Asks P) : p.attempt.Asks P :=
  Asks.tryCatch (Asks.bind hp fun _ => trivial) fun _ => trivial

-- Every value the program may return satisfies `R`.
def Returns (R : α → Prop) : Prog S ε α → Prop
  | ret value => R value
  | raise _ => True
  | ask _ next => ∀ answer, (next answer).Returns R

theorem Returns.bind {R : α → Prop} {R' : β → Prop} {p : Prog S ε α} {f : α → Prog S ε β}
    (hp : p.Returns R) (hf : ∀ value, R value → (f value).Returns R') : (p.bind f).Returns R' := by
  induction p with
  | ret value => exact hf value hp
  | raise => trivial
  | ask op next ih => exact fun answer => ih answer (hp answer)

theorem Returns.ofExcept {R : α → Prop} {x : Except ε α} (h : ∀ value, x = .ok value → R value) :
    (ofExcept x : Prog S ε α).Returns R := by
  cases x with
  | ok value => exact h value rfl
  | error => trivial

theorem Returns.mono {R R' : α → Prop} {p : Prog S ε α} (hp : p.Returns R)
    (h : ∀ value, R value → R' value) : p.Returns R' := by
  induction p with
  | ret value => exact h value hp
  | raise => trivial
  | ask op next ih => exact fun answer => ih answer (hp answer)

theorem Returns.attempt {R : α → Prop} {p : Prog S ε α} (hp : p.Returns R) :
    p.attempt.Returns fun result => ∀ value, result = .ok value → R value := by
  induction p with
  | ret value => exact fun _ he => Except.ok.inj he ▸ hp
  | raise error => exact nofun
  | ask op next ih => exact fun answer => ih answer (hp answer)

theorem Returns.all (p : Prog S ε α) : p.Returns fun _ => True := by
  induction p with
  | ret => trivial
  | raise => trivial
  | ask op next ih => exact ih

-- What the first part returns may be used for the second.
theorem Asks.andThen {R : α → Prop} {p : Prog S ε α} {f : α → Prog S ε β} (hp : p.Asks P)
    (hr : p.Returns R) (hf : ∀ value, R value → (f value).Asks P) : (p.bind f).Asks P := by
  induction p with
  | ret value => exact hf value hr
  | raise => trivial
  | ask op next ih => exact ⟨hp.1, fun answer => ih answer (hp.2 answer) (hr answer)⟩

theorem Asks.forM {f : α → Prog S ε PUnit} {xs : List α} (h : ∀ x ∈ xs, (f x).Asks P) :
    (xs.forM f).Asks P := by
  induction xs with
  | nil => trivial
  | cons x rest ih =>
      exact .bind (h x List.mem_cons_self) fun _ => ih fun y hy => h y (List.mem_cons_of_mem _ hy)

end Prog

end Interaction

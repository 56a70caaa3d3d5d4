import PerpetuaCore.Graph.Interface

namespace PerpetuaCore.Graph

open Interaction
open Python (Str Value Dict)

-- A runtime reducer; only a custom one has a function.
inductive Reducer where
  | rejectConflict
  | first
  | last
  | concat
  | union
  | custom (fn : Fn)
  deriving DecidableEq

def defaultReducer : Reducer := .rejectConflict

abbrev Contributions := List (Str × Value)

-- `_require_list`.
def requireList (field : Str) (who : Message) (value : Value) (kind : Str) :
    Except Exn (List Value) :=
  match value with
  | .list items | .tuple items => .ok items
  | _ =>
      let head : Message := [.insert kind, " reducer for field ", .repr field, " requires list values; "]
      let found : Message := [" is ", .insert value.typeName]
      .error (.typeError (head ++ who ++ found))

def orEmptyList (base : Value) : Value :=
  if base = .none then .list [] else base

def rejectConflict (field : Str) (contributions : Contributions) (declared : Bool) :
    Except Exn Value :=
  match contributions with
  | [] => .error (.other "IndexError" none none 0)
  | (_, head) :: rest =>
      if rest.any fun item => !item.2.eq head then
        .error (.reducerConflict field (contributions.map Prod.fst)
          ("branches wrote different values" ::
            if declared then [] else [" and no reducer is declared for the field"]))
      else .ok head

def concatFrom (field : Str) : List Value → Contributions → Except Exn (List Value)
  | result, [] => .ok result
  | result, (name, value) :: rest => do
      let items ← requireList field ["branch ", .repr name] value "concat"
      concatFrom field (result ++ items) rest

-- `_concat`.
def concat (field : Str) (base : Value) (contributions : Contributions) : Except Exn Value := do
  let result ← requireList field ["the base value"] (orEmptyList base) "concat"
  return .list (← concatFrom field result contributions)

-- What `item in items` looks for: the same object, or an equal one.
def found (other item : Value) : Bool := other = item || other.eq item

-- Appends the items not yet present, in order.
def appendNew (result items : List Value) : List Value :=
  items.foldl (fun result item => if result.any (found · item) then result else result ++ [item]) result

def unionFrom (field : Str) : List Value → Contributions → Except Exn (List Value)
  | result, [] => .ok result
  | result, (name, value) :: rest => do
      let items ← requireList field ["branch ", .repr name] value "union"
      unionFrom field (appendNew result items) rest

def dictItems? : Value → Option (List (Value × Value))
  | .dict items => some items
  | _ => none

-- `written`: for each key, the first branch that wrote it and its value.
abbrev Written := List (Value × Str × Value)

def unionDictItems (field name : Str) :
    List (Value × Value) → Written → Dict Value Value → Except Exn (Written × Dict Value Value)
  | [], written, result => .ok (written, result)
  | (key, item) :: rest, written, result =>
      match written.lookup key with
      | some (writer, value) =>
          if value.eq item then unionDictItems field name rest written (result.set key item)
          else .error (.reducerConflict field [writer, name]
            ["key ", .repr key, " written with different values"])
      | none => unionDictItems field name rest (written ++ [(key, name, item)]) (result.set key item)

def unionDictFrom (field : Str) :
    List (Str × List (Value × Value)) → Written → Dict Value Value → Except Exn (Dict Value Value)
  | [], _, result => .ok result
  | (name, items) :: rest, written, result => do
      let (written, result) ← unionDictItems field name items written result
      unionDictFrom field rest written result

-- `_union_dict`.
def unionDict (field : Str) (base : Value) (contributions : List (Str × List (Value × Value))) :
    Except Exn Value :=
  let fold (items : List (Value × Value)) := do
    return Value.dict (← unionDictFrom field contributions [] (Dict.ofList items)).items
  match base with
  | .none => fold []
  | .dict items => fold items
  | _ => .error (.typeError ["union reducer for field ", .repr field,
      " requires a dict base; got ", .insert base.typeName])

-- `_union`.
def union (field : Str) (base : Value) (contributions : Contributions) : Except Exn Value :=
  let dicts := contributions.filterMap fun item => (dictItems? item.2).map (item.1, ·)
  if dicts.length = contributions.length ∧ contributions ≠ [] then unionDict field base dicts
  else if dicts = [] ∧ contributions ≠ [] then do
    let result ← requireList field ["the base value"] (orEmptyList base) "union"
    return .list (← unionFrom field result contributions)
  else .error (.typeError ["union reducer for field ", .repr field, " mixes dict and list values"])

-- `prepare_custom_inputs`: detached copies, or the error of a value that refuses.
def prepareCustomInputs (base : Value) (contributions : Contributions) :
    Except Exn (Value × List Value) :=
  let values := contributions.map Prod.snd
  if base.copies && values.all (·.copies) then .ok (base, values)
  else .error (.typeError ["cannot be copied"])

-- `reduce_field`; `source` only labels the call of a custom function.
def reduceField (source field : Str) (reducer : Reducer) (base : Value)
    (contributions : Contributions) (contributionSemantics : Bool)
    (preparedInputs : Option (Value × List Value)) : Step Value :=
  match reducer with
  | .rejectConflict => .ofExcept (rejectConflict field contributions contributionSemantics)
  | .first => .ofExcept ((contributions.head?.map Prod.snd).elim
      (.error (.other "IndexError" none none 0)) .ok)
  | .last => .ofExcept ((contributions.getLast?.map Prod.snd).elim
      (.error (.other "IndexError" none none 0)) .ok)
  | .concat => .ofExcept (concat field base contributions)
  | .union => .ofExcept (union field base contributions)
  | .custom fn => do
      let (baseCopy, valuesCopy) ← .ofExcept
        (preparedInputs.elim (prepareCustomInputs base contributions) .ok)
      let answer ← invoke (.reducer source field fn baseCopy valuesCopy)
      .ofExcept answer

end PerpetuaCore.Graph

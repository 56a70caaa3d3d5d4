import PerpetuaCore.Graph.Spec.RoundTrip
import PerpetuaCore.Json.Loads

namespace PerpetuaCore.Graph

open Python (Str Value Float64 FloatText)
open Json (Blank Spells Same isJson)

-- `json.loads`.
def jsonLoads (readFloat : Str → Float64) (raw : Str) : Except Exn Value :=
  match Json.loads readFloat raw with
  | some value => .ok value
  | none => .error (.other "JSONDecodeError" none none 0)

namespace GraphSpec

variable [Builtins] [Sha256] {s : GraphSpec} {readFloat : Str → Float64}

-- A created spec is read from its own text and from every other text of its document: it may
-- have been indented anew, with its members in another order.
theorem reformatted_loads {maxSteps : Int} {nodes : List NodeSpec} {edges : List EdgeSpec}
    {metadata : Value} {schemaVersion : Option Str} {reducers : List ReducerSpec}
    {joins : List JoinSpec} (hn : ∀ n ∈ nodes, n.typed = true) (he : ∀ e ∈ edges, e.typed = true)
    (hr : ∀ r ∈ reducers, r.typed = true) (hj : ∀ j ∈ joins, j.typed = true)
    (hv : ∀ version ∈ schemaVersion, version = SCHEMA_VERSION ∨ version = SCHEMA_VERSION_R3)
    (h : create maxSteps nodes edges metadata schemaVersion reducers joins = .ok s) :
    ∃ document text, s.toDict = .ok document ∧ s.toJson = .ok text ∧
      ((∀ x ∈ Json.floatsIn document, Json.ReadsBack readFloat x) →
        fromJson (jsonLoads readFloat) text = .ok s) ∧
      ∀ before text' after w, Blank before → Spells readFloat text' w → Same document w → Blank after →
        fromJson (jsonLoads readFloat) (before ++ (text' ++ after)) = .ok s := by
  have hs := create_made hn he hr hj hv h
  have hjson := hs.isJson.2
  obtain ⟨text, htext⟩ := Option.isSome_iff_exists.mp (Json.dumpsUnicode_isSome hjson)
  have hread : ∀ before text' after w, Blank before → Spells readFloat text' w →
      Same (.dict s.document) w → Blank after →
        fromJson (jsonLoads readFloat) (before ++ (text' ++ after)) = .ok s := by
    intro before text' after w hbefore hspells hsame hafter
    have hloads : jsonLoads readFloat (before ++ (text' ++ after)) = .ok w := by
      rw [jsonLoads, Json.loads_spells hbefore hspells hafter]
    obtain ⟨items, rfl, -⟩ := Json.same_dict hsame
    rw [fromJson, hloads]
    exact hs.fromDict_of_reads (hs.reads_of_same hsame)
  refine ⟨_, text, hs.toDict_eq, ?_, fun hfloats => ?_, hread⟩
  · rw [toJson, hs.toDict_eq]
    change Graph.canonicalJson (.dict s.document) = .ok text
    rw [Graph.canonicalJson, htext]
  · obtain ⟨w, hspells, hsame⟩ := Json.spells_dumpsUnicode hjson hfloats htext
    have hown := hread [] text [] w Json.blank_nil hspells hsame Json.blank_nil
    rwa [List.nil_append, List.append_nil] at hown

def half : FloatText where
  text := "0.5".toList
  chars := List.forall_iff_forall_mem.mp (by decide)
  pointed := .inl (by decide)

-- `float` where the text is as `repr` writes it.
def readVerbatim (text : Str) : Float64 :=
  let chars := Json.toChars text
  if h : chars.all (fun c => c.isDigit || ['-', '+', '.', 'e'].contains c) = true ∧
      (chars.contains '.' || chars.contains 'e') = true then
    .finite ⟨chars, by simpa using h.1, by simpa using h.2⟩
  else .nan

-- Every text of the note has an escape.
omit [Builtins] in
def weighted : Except Exn GraphSpec :=
  create 5 sampleNodes sampleEdges
    (.dict [("note", "say \"ok\""), ("weight", .float (.finite half))]) none sampleReducers sampleJoins

-- The members of its document, the other way round.
def reversedKeys : List Str :=
  ["joins", "reducers", "metadata", "edges", "nodes", "max_steps", "schema_version", "graph_id"]

omit [Builtins] [Sha256] in
theorem reformatted_loads_weighted :
    letI := Sha256.verbatim
    letI := plainBuiltins
    ∃ s text, weighted = .ok s ∧ s.toJson = .ok text ∧
      fromJson (jsonLoads readVerbatim) text = .ok s ∧
      ∃ members, members.map Prod.fst = reversedKeys ∧
        fromJson (jsonLoads readVerbatim) ("\n" ++
          (Json.renderWith "\n" Json.escapeUnicode (.object members) ++ "\n")) = .ok s := by
  let := Sha256.verbatim
  let := plainBuiltins
  obtain ⟨s, hs⟩ : ∃ s, weighted = .ok s := Python.exists_ok (by decide +kernel)
  obtain ⟨document, text, hdocument, htext,
      (hread : _ → fromJson (jsonLoads readVerbatim) text = .ok s),
      (hreformatted : ∀ before text' after w, _ → Spells readVerbatim text' w → _ → _ →
        fromJson (jsonLoads readVerbatim) (before ++ (text' ++ after)) = .ok s)⟩ :=
    reformatted_loads (by decide) (by decide) (by decide) (by decide) (by simp) hs
  have hmade : s.Made := create_made (by decide) (by decide) (by decide) (by decide) (by simp) hs
  obtain rfl : .dict s.document = document := Except.ok.inj (hmade.toDict_eq.symm.trans hdocument)
  have hfloats : ∀ x ∈ Json.floatsIn (.dict s.document), Json.ReadsBack readVerbatim x := by
    have hall : weighted.toOption.any (fun s => Json.floatsIn (.dict s.document) = [half]) = true := by
      decide +kernel
    rw [hs] at hall
    intro x hx
    rw [of_decide_eq_true hall, List.mem_singleton] at hx
    subst hx
    exact ⟨by rfl, by rfl⟩
  have hkeys : s.document.map Prod.fst = reversedKeys.reverse.map .str := by
    have hall : weighted.toOption.any
        (fun s => s.document.map Prod.fst = reversedKeys.reverse.map .str) = true := by decide +kernel
    rw [hs] at hall
    exact of_decide_eq_true hall
  obtain ⟨strings, hstrings⟩ := Json.exists_named fun item hm =>
    (Json.isJsonItems_iff.mp (Bool.and_eq_true_iff.mp hmade.isJson.2).2 item hm).1
  have hblank : Blank "\n" := List.forall_iff_forall_mem.mp (by decide)
  obtain ⟨members, w, hmembers, hspells, hsame⟩ := Json.spells_reversed hblank
    (hstrings ▸ hmade.isJson.2) (hstrings ▸ hfloats)
  refine ⟨s, text, hs, htext, hread hfloats, members, ?_,
    hreformatted _ _ _ w hblank hspells (hstrings ▸ hsame) hblank⟩
  rw [hstrings, Json.named, List.map_map] at hkeys
  have hnames : strings.map Prod.fst = reversedKeys.reverse :=
    List.map_injective_iff.mpr (fun _ _ h => Value.str.inj h)
      ((List.map_map ..).trans hkeys)
  rw [hmembers, hnames, List.reverse_reverse]

end GraphSpec

end PerpetuaCore.Graph

import PerpetuaCore.Graph.Digest
import PerpetuaCore.Json.Reading

namespace PerpetuaCore.Graph

open Python (Str Value Dict)
open Json (Blurs Differs Same)

theorem digest_eq_iff_blurs [Sha256] (hsha : Function.Injective Sha256.hexdigest) {d d' : Delta}
    {digest digest' : Str} (h : deltaDigest d = .ok digest) (h' : deltaDigest d' = .ok digest') :
    digest = digest' ↔ Blurs (.dict d.items) (.dict d'.items) := by
  unfold deltaDigest at h h'
  split at h
  · cases h
  · rename_i text htext
    split at h'
    · cases h'
    · rename_i text' htext'
      cases h
      cases h'
      rw [hsha.eq_iff, ← Json.dumpsAscii_eq_iff_blurs htext, htext', Option.some.injEq, eq_comm]

-- A digest binds a delta but for deltas JSON does not tell apart: with a tuple for a list,
-- a scalar key for the string it is written as, or a surrogate pair for one character.
theorem digest_binds_iff [Sha256] (hsha : Function.Injective Sha256.hexdigest) {d d' : Delta}
    {digest digest' : Str} (h : deltaDigest d = .ok digest) (h' : deltaDigest d' = .ok digest')
    (hd' : (Value.dict d'.items).wellFormed = true) :
    (digest = digest' → Same (.dict d.items) (.dict d'.items)) ↔
      ¬(Blurs (.dict d.items) (.dict d'.items) ∧ Differs (.dict d.items) (.dict d'.items)) := by
  rw [digest_eq_iff_blurs hsha h h', not_and]
  constructor
  · exact fun hsame hb hd => Json.not_same_of_differs hd hb hd' (hsame hb)
  · exact fun hnot hb => Json.same_of_not_differs _ _ hb (hnot hb)

def listDelta : Delta := Dict.ofList [("scratchpad", .list [.int 1])]

def tupleDelta : Delta := Dict.ofList [("scratchpad", .tuple [.int 1])]

theorem digest_binds_iff_tuple :
    letI := Sha256.verbatim
    ∃ digest, deltaDigest listDelta = .ok digest ∧ deltaDigest tupleDelta = .ok digest ∧
      ((digest = digest → Same (.dict listDelta.items) (.dict tupleDelta.items)) ↔
        ¬(Blurs (.dict listDelta.items) (.dict tupleDelta.items) ∧
          Differs (.dict listDelta.items) (.dict tupleDelta.items))) :=
  letI := Sha256.verbatim
  ⟨_, rfl, rfl, digest_binds_iff Function.injective_id rfl rfl (by decide)⟩

-- A node that returns a tuple and one that returns the list of its items.
theorem tuple_digest_lossy :
    ¬∀ [Sha256], Function.Injective Sha256.hexdigest → ∀ (d d' : Delta) (digest : Str),
      (Value.dict d'.items).wellFormed = true → deltaDigest d = .ok digest →
      deltaDigest d' = .ok digest → Same (.dict d.items) (.dict d'.items) := by
  intro h
  let := Sha256.verbatim
  have hsame := h Function.injective_id listDelta tupleDelta _ (by decide) rfl rfl
  have hitem : ((.str "scratchpad", .list [.int 1]), (.str "scratchpad", .tuple [.int 1])) ∈
      listDelta.items.zip tupleDelta.items := by decide
  have hb := (digest_eq_iff_blurs Function.injective_id (show deltaDigest listDelta = .ok _ from rfl)
    (show deltaDigest tupleDelta = .ok _ from rfl)).mp rfl
  exact Json.not_same_of_differs (.value rfl rfl hitem .listTuple) hb (by decide) hsame

end PerpetuaCore.Graph

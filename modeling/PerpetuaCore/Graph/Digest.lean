import PerpetuaCore.Json.Dumps
import PerpetuaCore.State

namespace PerpetuaCore.Graph

open Python (Str Value)

-- `hashlib.sha256(text.encode("utf-8")).hexdigest()`.
class Sha256 where
  hexdigest : Str → Str

-- A digest without collisions: the text itself.
@[reducible] def Sha256.verbatim : Sha256 := ⟨id⟩

-- `_delta_digest`: refuses what `json.dumps` refuses.
def deltaDigest [Sha256] (delta : Delta) : Except Exn Str :=
  match Json.dumpsAscii (.dict delta.items) with
  | none => .error (.typeError ["gated commit delta must be canonical JSON"])
  | some encoded => .ok (Sha256.hexdigest encoded)

-- A delta that can be digested can be copied.
theorem itemsCopy_of_digest [Sha256] {delta : Delta} {digest : Str}
    (h : deltaDigest delta = .ok digest) : State.itemsCopy delta.items = true := by
  unfold deltaDigest at h
  split at h
  · cases h
  · rename_i encoded hdumps
    obtain ⟨doc, hdoc, -⟩ := Option.map_eq_some_iff.mp hdumps
    rw [State.itemsCopy_eq]
    exact Json.copies_of_toDoc hdoc

end PerpetuaCore.Graph

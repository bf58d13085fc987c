import Levin.Core.Connection
import Levin.Framework.Lines

/-!
# The map of headers

`_create_headers_map` groups the values of a list of headers by their names, up to
the case of ASCII letters (`createHeadersMap_eq`). The order of headers with different
names makes no difference to the map, and a map gives itself again, as
`handle_push` relies on (`createHeadersMap_spec`).
-/

namespace Levin

open Framework Bytes

variable {headers : List (Bytes × Bytes)} {name : Bytes}

/-- The headers, with their names in lower case. -/
def lowered (headers : List (Bytes × Bytes)) : List (Bytes × Bytes) := headers.map fun h => (lower h.1, h.2)

/-- The values of the headers called `name`, up to case, in order. -/
def headerValues (name : Bytes) (headers : List (Bytes × Bytes)) : List Bytes :=
  (headers.filter fun h => lower h.1 = name).map Prod.snd

/-- The headers in another order, in which those with equal names, up to case, come as before. -/
structure Reordering (headers headers' : List (Bytes × Bytes)) : Prop where
  perm : headers.Perm headers'
  order (name : Bytes) : headers.filter (fun h => lower h.1 = name) = headers'.filter fun h => lower h.1 = name

/-- What the map of `headers` should be: under each name in lower case the values of all headers of that name. -/
structure IsHeaderMap (headers : List (Bytes × Bytes)) (map : Dict Bytes Bytes) : Prop where
  nodup : (map.map Prod.fst).Nodup
  keys (name : Bytes) : name ∈ map.map Prod.fst ↔ ∃ h ∈ headers, lower h.1 = name
  value (name : Bytes) (h : name ∈ map.map Prod.fst) : map.get? name = some (join (ascii "; ") (headerValues name headers))

theorem valuesOf_lowered (name : Bytes) (headers : List (Bytes × Bytes)) :
    Dict.valuesOf name (lowered headers) = headerValues name headers := by
  rw [Dict.valuesOf, lowered, List.filter_map, List.map_map]
  rfl

theorem lower_of_mem_group (h : name ∈ (Dict.group (lowered headers)).map Prod.fst) : lower name = name := by
  rw [← Dict.get?_ne_none, Dict.get?_group, valuesOf_lowered] at h
  have hvalues : headerValues name headers ≠ [] := fun hnil => h (if_pos hnil)
  obtain ⟨v, hv⟩ := List.exists_mem_of_ne_nil _ hvalues
  obtain ⟨header, hheader, -⟩ := List.mem_map.mp hv
  rw [← of_decide_eq_true (List.mem_filter.mp hheader).2, lower_lower]

/-- The groups are in lower case, each of them once. -/
theorem createHeadersMap_eq (headers : List (Bytes × Bytes)) :
    createHeadersMap headers = (Dict.group (lowered headers)).map fun kv => (kv.1, join (ascii "; ") kv.2) := by
  have hgroup : headers.foldl (fun d h => Dict.appendAt (lower h.1) h.2 d) [] = Dict.group (lowered headers) := by
    rw [Dict.group, lowered, List.foldl_map]
  have hlower : ((Dict.group (lowered headers)).map fun kv => (lower kv.1, join (ascii "; ") kv.2)) =
      (Dict.group (lowered headers)).map fun kv => (kv.1, join (ascii "; ") kv.2) := by
    refine List.map_congr_left fun kv hkv => ?_
    rw [lower_of_mem_group (List.mem_map_of_mem hkv)]
  show Dict.ofItems ((headers.foldl (fun d h => Dict.appendAt (lower h.1) h.2 d) []).map fun kv =>
    (lower kv.1, join (ascii "; ") kv.2)) = _
  rw [hgroup, hlower]
  refine Dict.ofItems_of_nodup ?_
  rw [List.map_map]
  exact Dict.nodup_group _

theorem get?_createHeadersMap (name : Bytes) (headers : List (Bytes × Bytes)) : (createHeadersMap headers).get? name =
    if headerValues name headers = [] then none else some (join (ascii "; ") (headerValues name headers)) := by
  rw [createHeadersMap_eq, Dict.get?_map, Dict.get?_group, valuesOf_lowered]
  split <;> rfl

theorem headerValues_ne_nil : headerValues name headers ≠ [] ↔ ∃ h ∈ headers, lower h.1 = name := by
  simp [headerValues]

theorem mem_keys_createHeadersMap :
    name ∈ (createHeadersMap headers).map Prod.fst ↔ headerValues name headers ≠ [] := by
  rw [← Dict.get?_ne_none, get?_createHeadersMap]
  split <;> simp_all

theorem isHeaderMap_createHeadersMap (headers : List (Bytes × Bytes)) :
    IsHeaderMap headers (createHeadersMap headers) where
  nodup := by
    rw [createHeadersMap_eq, List.map_map]
    exact Dict.nodup_group _
  keys name := by rw [mem_keys_createHeadersMap, headerValues_ne_nil]
  value name h := by rw [get?_createHeadersMap, if_neg (mem_keys_createHeadersMap.mp h)]

theorem Reordering.headerValues {headers' : List (Bytes × Bytes)} (h : Reordering headers headers') (name : Bytes) :
    headerValues name headers' = headerValues name headers := by
  rw [Levin.headerValues, Levin.headerValues, h.order name]

theorem Reordering.get? {headers' : List (Bytes × Bytes)} (h : Reordering headers headers') (name : Bytes) :
    (createHeadersMap headers').get? name = (createHeadersMap headers).get? name := by
  rw [get?_createHeadersMap, get?_createHeadersMap, h.headerValues]

theorem lowered_createHeadersMap (headers : List (Bytes × Bytes)) :
    lowered (createHeadersMap headers) = createHeadersMap headers := by
  have hmap := isHeaderMap_createHeadersMap headers
  conv_rhs => rw [← List.map_id (createHeadersMap headers)]
  refine List.map_congr_left fun kv hkv => ?_
  obtain ⟨header, -, hname⟩ := (hmap.keys kv.1).mp (List.mem_map_of_mem hkv)
  rw [← hname, lower_lower, hname]
  rfl

/-- The map of a map is the map. -/
theorem createHeadersMap_idem (headers : List (Bytes × Bytes)) :
    createHeadersMap (createHeadersMap headers) = createHeadersMap headers := by
  have hjoin : (fun kv : Bytes × Bytes => (kv.1, join (ascii "; ") [kv.2])) = id := by
    funext kv
    simp [join]
  rw [createHeadersMap_eq (createHeadersMap headers), lowered_createHeadersMap,
    Dict.group_of_nodup (isHeaderMap_createHeadersMap headers).nodup, List.map_map]
  exact (congrArg (List.map · _) hjoin).trans (List.map_id _)

/-- A pushed request has the headers of the one it is pushed for. -/
theorem pushRequest_headers {π ω : Type} (c : Connection π ω) (push : Push) {request : Request}
    (h : request.headers = createHeadersMap headers) : (c.pushRequest push request).headers = request.headers := by
  rw [h, ← createHeadersMap_idem, ← h]
  rfl

/-- `_create_headers_map` is the map of the headers, whatever the order of different names, and of its own items. -/
theorem createHeadersMap_spec (headers : List (Bytes × Bytes)) :
    IsHeaderMap headers (createHeadersMap headers) ∧
      (∀ headers', Reordering headers headers' →
        ∀ name, (createHeadersMap headers').get? name = (createHeadersMap headers).get? name) ∧
      createHeadersMap (createHeadersMap headers) = createHeadersMap headers :=
  ⟨isHeaderMap_createHeadersMap headers, fun _ h => h.get?, createHeadersMap_idem headers⟩

end Levin

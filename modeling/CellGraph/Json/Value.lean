import CellGraph.Json.Number

/-!
# JSON values

The members of an object keep their order in a value, and no key comes twice (`Members`).  Two values are the same
(`Value.same`) when they have the same type and contents; an integer is never the same as a double, and the order of the
members of an object does not matter.
-/

namespace CellGraph

mutual

inductive Value where
  | null
  | bool (b : Bool)
  | number (n : Number)
  | string (s : String)
  | array (items : List Value)
  | object (members : Members [])

/-- The members of an object from one of them on.  Their keys are not among those that were used before. -/
inductive Members : List String → Type where
  | nil {used : List String} : Members used
  | cons {used : List String} (key : String) (v : Value) (new : key ∉ used) (rest : Members (key :: used)) :
    Members used

end

instance : Inhabited Value := ⟨.null⟩

/-! ### Members of objects -/

namespace Members

variable {used : List String} {ms : Members used} {key : String} {v : Value}

def toList {used : List String} : Members used → List (String × Value)
  | .nil => []
  | .cons key v _ rest => (key, v) :: rest.toList

def size (ms : Members used) : Nat := ms.toList.length

/-- The members of an object with one of them set.  A key that is there keeps its place and takes the new value; a new
key comes last. -/
def set {used : List String} (key : String) (v : Value) (new : key ∉ used) : Members used → Members used
  | .nil => .cons key v new .nil
  | .cons k w hk rest =>
    if heq : k = key then .cons k v hk rest
    else .cons k w hk (rest.set key v fun hmem => (List.mem_cons.1 hmem).elim (fun h => heq h.symm) new)

/-- The members of an object that are set one after the other. -/
def ofList (fs : List (String × Value)) : Members [] :=
  fs.foldl (fun ms f => ms.set f.1 f.2 List.not_mem_nil) .nil

@[induction_eliminator]
theorem induct {P : {used : List String} → Members used → Prop}
    (nil : ∀ {used : List String}, P (.nil : Members used))
    (cons : ∀ {used : List String} (key : String) (v : Value) (new : key ∉ used) (rest : Members (key :: used)),
      P rest → P (.cons key v new rest)) {used : List String} : ∀ ms : Members used, P ms
  | .nil => nil
  | .cons key v new rest => cons key v new rest (induct nil cons rest)

theorem not_mem_used {f : String × Value} (hf : f ∈ ms.toList) : f.1 ∉ used := by
  induction ms with
  | nil => exact absurd hf List.not_mem_nil
  | cons key v new rest ih =>
    rcases List.mem_cons.1 hf with rfl | hf
    · exact new
    · exact fun hused => ih hf (List.mem_cons_of_mem _ hused)

theorem nodup_keys (ms : Members used) : (ms.toList.map (·.1)).Nodup := by
  induction ms with
  | nil => exact .nil
  | cons key v new rest ih =>
    rw [toList, List.map_cons, List.nodup_cons]
    refine ⟨fun hmem => ?_, ih⟩
    obtain ⟨f, hf, rfl⟩ := List.mem_map.1 hmem
    exact not_mem_used hf (List.mem_cons_self ..)

theorem toList_injective {ns : Members used} (h : ms.toList = ns.toList) : ms = ns := by
  induction ms with
  | nil =>
    cases ns with
    | nil => rfl
    | cons => nomatch h
  | cons key v new rest ih =>
    cases ns with
    | nil => nomatch h
    | cons k w hk more =>
      obtain ⟨hfirst, hrest⟩ := List.cons.inj h
      obtain ⟨rfl, rfl⟩ := Prod.mk.inj hfirst
      rw [ih hrest]

theorem toList_set_of_new {new : key ∉ used} (h : key ∉ ms.toList.map (·.1)) :
    (ms.set key v new).toList = ms.toList ++ [(key, v)] := by
  induction ms with
  | nil => rfl
  | cons k w hk rest ih =>
    rw [toList, List.map_cons, List.mem_cons, not_or] at h
    rw [set, dif_neg (Ne.symm h.1), toList, ih h.2, toList, List.cons_append]

theorem mem_toList_set {new : key ∉ used} {f : String × Value} (h : f ∈ (ms.set key v new).toList) :
    f = (key, v) ∨ f ∈ ms.toList := by
  induction ms with
  | nil => exact Or.inl (List.mem_singleton.1 h)
  | cons k w hk rest ih =>
    rw [set] at h
    split at h
    · rename_i heq
      subst heq
      exact (List.mem_cons.1 h).imp_right (List.mem_cons_of_mem _)
    · rcases List.mem_cons.1 h with rfl | h
      · exact Or.inr (List.mem_cons_self ..)
      · exact (ih h).imp_right (List.mem_cons_of_mem _)

/-- Each member of an object was set. -/
theorem mem_of_mem_ofList {fs : List (String × Value)} {f : String × Value} (h : f ∈ (ofList fs).toList) : f ∈ fs := by
  suffices hall : ∀ (fs : List (String × Value)) (ms : Members []),
      f ∈ (fs.foldl (fun ms f => ms.set f.1 f.2 List.not_mem_nil) ms).toList → f ∈ ms.toList ∨ f ∈ fs from
    (hall fs .nil h).resolve_left List.not_mem_nil
  intro fs
  induction fs with
  | nil => exact fun _ => Or.inl
  | cons g fs ih =>
    intro ms h
    rcases ih _ h with h | h
    · rcases mem_toList_set h with rfl | h
      · exact Or.inr (List.mem_cons_self ..)
      · exact Or.inl h
    · exact Or.inr (List.mem_cons_of_mem _ h)

/-- Members with distinct keys that are set one after the other. -/
theorem toList_ofList {fs : List (String × Value)} (h : (fs.map (·.1)).Nodup) : (ofList fs).toList = fs := by
  suffices hall : ∀ (fs : List (String × Value)) (ms : Members []), ((ms.toList ++ fs).map (·.1)).Nodup →
      (fs.foldl (fun ms f => ms.set f.1 f.2 List.not_mem_nil) ms).toList = ms.toList ++ fs from hall fs .nil h
  intro fs
  induction fs with
  | nil => exact fun _ _ => (List.append_nil _).symm
  | cons f fs ih =>
    intro ms h
    have hnew : f.1 ∉ ms.toList.map (·.1) := by
      rw [List.map_append, List.nodup_append] at h
      exact fun hmem => h.2.2 _ hmem _ (List.mem_cons_self ..) rfl
    have hset : (ms.set f.1 f.2 List.not_mem_nil).toList = ms.toList ++ [f] := toList_set_of_new hnew
    rw [List.foldl_cons, ih, hset, List.append_assoc, List.singleton_append]
    rwa [hset, List.append_assoc, List.singleton_append]

theorem ofList_toList (ms : Members []) : ofList ms.toList = ms := toList_injective (toList_ofList ms.nodup_keys)

end Members

/-! ### Sameness -/

namespace Value

mutual

/-- Whether two values have the same type and contents. -/
def same : Value → Value → Bool
  | .null, .null => true
  | .bool a, .bool b => a == b
  | .number m, .number n => m.same n
  | .string s, .string t => s == t
  | .array vs, .array ws => sameItems vs ws
  | .object fs, .object gs => fs.size == gs.size && sameMembers fs gs
  | _, _ => false

/-- Whether two lists of values are the same item by item. -/
def sameItems : List Value → List Value → Bool
  | [], [] => true
  | v :: vs, w :: ws => v.same w && sameItems vs ws
  | _, _ => false

/-- Whether the members of an object have the same values under their keys in another one. -/
def sameMembers {used : List String} : Members used → Members [] → Bool
  | .nil, _ => true
  | .cons k v _ fs, gs => gs.toList.any (fun g => k == g.1 && v.same g.2) && sameMembers fs gs

end

end Value

end CellGraph

import CellGraph.Json.Value
import CellGraph.Proofs.Numeric.Arithmetic

/-!
# When two values are the same

Two values are the same if they have the same shape, up to the order of the members of an object, and the numbers in
them are of the same kind and denote the same number (`Value.Same`); that is what the comparison decides
(`Value.same_iff`).  It looks for the members of one object in another one, which is enough if there are as many: no key
comes twice, so no member is left over.  Whatever is the same as a value is the same as it to all others
(`Value.respects_same`).  That fact for one value rests on the same fact for the values inside of it, and it gives symmetry
and transitivity at once (`equivalence_of_respects`).
-/

namespace CellGraph

/-! ### Relations that know classes only -/

section Respects

variable {α : Type} {r : α → α → Bool} {a b : α} {as bs cs : List α}

/-- Whatever is related to `a` is related to the same as `a`. -/
def Respects (r : α → α → Bool) (a : α) : Prop := ∀ b, r a b = true → ∀ c, r a c = r b c

theorem Respects.symm (ha : Respects r a) (hself : r a a = true) (h : r a b = true) : r b a = true :=
  (ha b h a).symm.trans hself

theorem equivalence_of_respects (hself : ∀ a, r a a = true) (h : ∀ a, Respects r a) :
    Equivalence fun a b => r a b = true :=
  ⟨hself, fun {a _} hab => (h a).symm (hself a) hab, fun {a b c} hab hbc => ((h a) b hab c).trans hbc⟩

private theorem forall₂_trans (has : ∀ a ∈ as, Respects r a) (h : List.Forall₂ (r · · = true) as bs)
    (h' : List.Forall₂ (r · · = true) bs cs) : List.Forall₂ (r · · = true) as cs := by
  induction h generalizing cs with
  | nil => exact h'
  | @cons a b as bs hab _ ih =>
    obtain ⟨c, cs, hbc, hrest, rfl⟩ := List.forall₂_cons_left_iff.1 h'
    exact .cons ((has a (List.mem_cons_self ..) b hab c).trans hbc) (ih (fun a ha => has a (.tail _ ha)) hrest)

private theorem forall₂_left (has : ∀ a ∈ as, Respects r a) (h : List.Forall₂ (r · · = true) as bs)
    (h' : List.Forall₂ (r · · = true) as cs) : List.Forall₂ (r · · = true) bs cs := by
  induction h generalizing cs with
  | nil => exact h'
  | @cons a b as bs hab _ ih =>
    obtain ⟨c, cs, hac, hrest, rfl⟩ := List.forall₂_cons_left_iff.1 h'
    exact .cons ((has a (List.mem_cons_self ..) b hab c).symm.trans hac) (ih (fun a ha => has a (.tail _ ha)) hrest)

end Respects

/-! ### Numbers -/

namespace Number

/-- The number that is denoted. -/
def value : Number → ℚ
  | .int n _ => n
  | .float x _ => Binary64.value x

/-- Whether a number is of the kind of integers. -/
def isInt : Number → Bool
  | .int _ _ => true
  | .float _ _ => false

theorem isFinite_toFloat (n : Number) : n.toFloat.isFinite = true := by
  cases n with
  | int n inRange => exact Binary64.isFinite_ofInt (by omega)
  | float x finite => exact finite

theorem same_iff {m n : Number} : m.same n = true ↔ m.isInt = n.isInt ∧ m.value = n.value := by
  cases m with
  | int m hm =>
    cases n with
    | int n hn => simp [same, isInt, value]
    | float y hy => simp [same, isInt]
  | float x hx =>
    cases n with
    | int n hn => simp [same, isInt]
    | float y hy => simp [same, isInt, value, Binary64.beq_iff_value_eq hx hy]

theorem respects_same (m : Number) : Respects same m := by
  intro n h k
  obtain ⟨hkind, hvalue⟩ := same_iff.1 h
  rw [Bool.eq_iff_iff, same_iff, same_iff, hkind, hvalue]

end Number

namespace Value

/-- What holds for a value if it holds for the values inside of it holds for all values. -/
theorem induct {P : Value → Prop} (null : P .null) (bool : ∀ b, P (.bool b)) (number : ∀ n, P (.number n))
    (string : ∀ s, P (.string s)) (array : ∀ vs, (∀ v ∈ vs, P v) → P (.array vs))
    (object : ∀ fs : Members [], (∀ f ∈ fs.toList, P f.2) → P (.object fs)) (v : Value) : P v :=
  @Value.rec P (fun _ fs => ∀ f ∈ fs.toList, P f.2) (fun vs => ∀ v ∈ vs, P v) null bool number string array object
    (fun _ h => absurd h List.not_mem_nil) (fun _ _ _ _ hv hfs => List.forall_mem_cons.2 ⟨hv, hfs⟩)
    (fun _ h => absurd h List.not_mem_nil) (fun _ _ hv hvs => List.forall_mem_cons.2 ⟨hv, hvs⟩) v

/-! ### Items -/

section Items

variable {vs ws : List Value}

private theorem sameItems_iff : sameItems vs ws = true ↔ List.Forall₂ (same · · = true) vs ws := by
  induction vs generalizing ws with
  | nil => cases ws <;> simp [sameItems]
  | cons v vs ih => cases ws <;> simp [sameItems, ih]

private theorem respects_sameItems (hvs : ∀ v ∈ vs, Respects same v) : Respects sameItems vs := by
  intro ws h us
  rw [sameItems_iff] at h
  rw [Bool.eq_iff_iff, sameItems_iff, sameItems_iff]
  exact ⟨forall₂_left hvs h, forall₂_trans hvs h⟩

end Items

/-! ### Members -/

section Members

variable {used : List String} {fs gs : Members []}

private theorem sameMembers_iff {fs : Members used} :
    sameMembers fs gs = true ↔ ∀ f ∈ fs.toList, ∃ g ∈ gs.toList, f.1 = g.1 ∧ f.2.same g.2 = true := by
  induction fs with
  | nil => simp [sameMembers, Members.toList]
  | cons k v new fs ih => simp [sameMembers, Members.toList, ih]

/-- If there are as many members on both sides, those on the right have the same values on the left. -/
private theorem exists_of_sameMembers (hsize : fs.size = gs.size) (h : sameMembers fs gs = true)
    {g : String × Value} (hg : g ∈ gs.toList) : ∃ f ∈ fs.toList, f.1 = g.1 ∧ f.2.same g.2 = true := by
  rw [sameMembers_iff] at h
  have hsubset : fs.toList.map (·.1) ⊆ gs.toList.map (·.1) := by
    intro k hk
    obtain ⟨f, hf, rfl⟩ := List.mem_map.1 hk
    obtain ⟨g, hg, hkey, -⟩ := h f hf
    exact hkey ▸ List.mem_map_of_mem hg
  have hlength : (gs.toList.map (·.1)).length ≤ (fs.toList.map (·.1)).length := by
    rw [List.length_map, List.length_map]
    exact hsize.ge
  have hperm : (fs.toList.map (·.1)).Perm (gs.toList.map (·.1)) :=
    (List.subperm_of_subset fs.nodup_keys hsubset).perm_of_length_le hlength
  obtain ⟨f, hf, hfg⟩ := List.mem_map.1 (hperm.mem_iff.2 (List.mem_map_of_mem hg))
  obtain ⟨g', hg', hkey, hsame⟩ := h f hf
  -- the member with the same value has the same key as the given one
  obtain rfl : g' = g := List.inj_on_of_nodup_map gs.nodup_keys hg' hg (hkey.symm.trans hfg)
  exact ⟨f, hf, hfg, hsame⟩

private theorem respects_same_object (hfs : ∀ f ∈ fs.toList, Respects same f.2) (h : (object fs).same (object gs) = true)
    (hs : Members []) : (object fs).same (object hs) = (object gs).same (object hs) := by
  rw [same, Bool.and_eq_true, beq_iff_eq] at h
  rw [same, same, h.1]
  refine congrArg _ (Bool.eq_iff_iff.2 ?_)
  have hleft := sameMembers_iff.1 h.2
  rw [sameMembers_iff, sameMembers_iff]
  constructor
  · intro hall g hg
    obtain ⟨f, hf, hkey, hsame⟩ := exists_of_sameMembers h.1 h.2 hg
    obtain ⟨k, hk, hkey', hsame'⟩ := hall f hf
    exact ⟨k, hk, hkey.symm.trans hkey', (hfs f hf g.2 hsame k.2).symm.trans hsame'⟩
  · intro hall f hf
    obtain ⟨g, hg, hkey, hsame⟩ := hleft f hf
    obtain ⟨k, hk, hkey', hsame'⟩ := hall g hg
    exact ⟨k, hk, hkey.trans hkey', (hfs f hf g.2 hsame k.2).trans hsame'⟩

end Members

/-! ### Values -/

/-- Whatever is the same as a value is the same as it to all others. -/
theorem respects_same (v : Value) : Respects same v := by
  induction v using induct with
  | null =>
    intro w h u
    cases w with
    | null => rfl
    | _ => nomatch h
  | bool a =>
    intro w h u
    cases w with
    | bool b => rw [show a = b from beq_iff_eq.1 h]
    | _ => nomatch h
  | number m =>
    intro w h u
    cases w with
    | number n =>
      cases u with
      | number k => exact m.respects_same n h k
      | _ => rfl
    | _ => nomatch h
  | string s =>
    intro w h u
    cases w with
    | string t => rw [show s = t from beq_iff_eq.1 h]
    | _ => nomatch h
  | array vs ih =>
    intro w h u
    cases w with
    | array ws =>
      cases u with
      | array us => exact respects_sameItems ih ws h us
      | _ => rfl
    | _ => nomatch h
  | object fs ih =>
    intro w h u
    cases w with
    | object gs =>
      cases u with
      | object hs => exact respects_same_object ih h hs
      | _ => rfl
    | _ => nomatch h

theorem same_self (v : Value) : v.same v = true := by
  induction v using induct with
  | null => rfl
  | bool b => exact beq_self_eq_true b
  | number n => exact Number.same_iff.2 ⟨rfl, rfl⟩
  | string s => exact beq_self_eq_true s
  | array vs ih => exact sameItems_iff.2 (List.forall₂_same.2 ih)
  | object fs ih =>
    rw [same, beq_self_eq_true, Bool.true_and, sameMembers_iff]
    exact fun f hf => ⟨f, hf, rfl, ih f hf⟩

/-- Two values have the same shape up to the order of the members of their objects, and the numbers in them are of the
same kind and denote the same number. -/
inductive Same : Value → Value → Prop where
  | null : Same .null .null
  | bool (b : Bool) : Same (.bool b) (.bool b)
  | number {m n : Number} : m.isInt = n.isInt → m.value = n.value → Same (.number m) (.number n)
  | string (s : String) : Same (.string s) (.string s)
  | array {vs ws : List Value} : List.Forall₂ Same vs ws → Same (.array vs) (.array ws)
  | object {fs gs : Members []} {hs : List (String × Value)} : fs.toList.map (·.1) = hs.map (·.1) →
      List.Forall₂ Same (fs.toList.map (·.2)) (hs.map (·.2)) → hs.Perm gs.toList → Same (.object fs) (.object gs)

private theorem forall₂_same_congr {vs ws : List Value} (h : ∀ v ∈ vs, ∀ w, v.same w = true ↔ v.Same w) :
    List.Forall₂ (same · · = true) vs ws ↔ List.Forall₂ Same vs ws := by
  induction vs generalizing ws with
  | nil => simp
  | cons v vs ih => cases ws <;> simp_all

private theorem exists_forall₂_of_forall_mem {α β : Type} {r : α → β → Prop} {as : List α} {bs : List β}
    (h : ∀ a ∈ as, ∃ b ∈ bs, r a b) : ∃ cs, List.Forall₂ r as cs ∧ cs ⊆ bs := by
  induction as with
  | nil => exact ⟨[], .nil, List.nil_subset bs⟩
  | cons a as ih =>
    rw [List.forall_mem_cons] at h
    obtain ⟨⟨b, hb, hab⟩, hrest⟩ := h
    obtain ⟨cs, hcs, hsubset⟩ := ih hrest
    exact ⟨b :: cs, .cons hab hcs, List.cons_subset.2 ⟨hb, hsubset⟩⟩

private theorem exists_mem_of_forall₂ {α β : Type} {r : α → β → Prop} {as : List α} {bs : List β}
    (h : List.Forall₂ r as bs) {a : α} (ha : a ∈ as) : ∃ b ∈ bs, r a b := by
  induction h with
  | nil => exact absurd ha List.not_mem_nil
  | cons hab _ ih =>
    rcases List.mem_cons.1 ha with rfl | ha
    · exact ⟨_, List.mem_cons_self .., hab⟩
    · obtain ⟨b, hb, hab⟩ := ih ha
      exact ⟨b, List.mem_cons_of_mem _ hb, hab⟩

private theorem forall₂_member_iff {fs hs : List (String × Value)} :
    List.Forall₂ (fun f h => f.1 = h.1 ∧ f.2.same h.2 = true) fs hs ↔
      fs.map (·.1) = hs.map (·.1) ∧ List.Forall₂ (same · · = true) (fs.map (·.2)) (hs.map (·.2)) := by
  induction fs generalizing hs with
  | nil => cases hs <;> simp
  | cons f fs ih =>
    cases hs with
    | nil => simp
    | cons h hs =>
      rw [List.forall₂_cons, ih, List.map_cons, List.map_cons, List.map_cons, List.map_cons, List.forall₂_cons,
        List.cons.injEq]
      exact and_and_and_comm

/-- Two objects are the same if the members of one of them, in some order, are the same as those of the other one. -/
private theorem same_object_iff {fs gs : Members []} : (object fs).same (object gs) = true ↔
    ∃ hs : List (String × Value), List.Forall₂ (fun f h => f.1 = h.1 ∧ f.2.same h.2 = true) fs.toList hs ∧
      hs.Perm gs.toList := by
  rw [same, Bool.and_eq_true, beq_iff_eq, sameMembers_iff]
  constructor
  · rintro ⟨hsize, hall⟩
    obtain ⟨hs, hmatch, hsubset⟩ := exists_forall₂_of_forall_mem hall
    have hkeys := (forall₂_member_iff.1 hmatch).1
    have hnodup : hs.Nodup := .of_map _ (hkeys ▸ fs.nodup_keys)
    have hlength : gs.toList.length ≤ hs.length := hmatch.length_eq ▸ hsize.ge
    exact ⟨hs, hmatch, (List.subperm_of_subset hnodup hsubset).perm_of_length_le hlength⟩
  · rintro ⟨hs, hmatch, hperm⟩
    refine ⟨hmatch.length_eq.trans hperm.length_eq, fun f hf => ?_⟩
    obtain ⟨h, hh, hsame⟩ := exists_mem_of_forall₂ hmatch hf
    exact ⟨h, hperm.mem_iff.1 hh, hsame⟩

theorem same_iff {v w : Value} : v.same w = true ↔ v.Same w := by
  induction v using induct generalizing w with
  | null =>
    cases w with
    | null => exact iff_of_true rfl .null
    | _ => exact iff_of_false nofun nofun
  | bool a =>
    cases w with
    | bool b => exact ⟨fun h => beq_iff_eq.1 h ▸ .bool a, fun | .bool a => same_self _⟩
    | _ => exact iff_of_false nofun nofun
  | number m =>
    cases w with
    | number n => exact Number.same_iff.trans ⟨fun h => .number h.1 h.2, fun | .number hkind hvalue => ⟨hkind, hvalue⟩⟩
    | _ => exact iff_of_false nofun nofun
  | string s =>
    cases w with
    | string t => exact ⟨fun h => beq_iff_eq.1 h ▸ .string s, fun | .string s => same_self _⟩
    | _ => exact iff_of_false nofun nofun
  | array vs ih =>
    cases w with
    | array ws =>
      have hitems : sameItems vs ws = true ↔ List.Forall₂ Same vs ws :=
        sameItems_iff.trans (forall₂_same_congr fun v hv _ => ih v hv)
      exact ⟨fun h => .array (hitems.1 h), fun | .array h => hitems.2 h⟩
    | _ => exact iff_of_false nofun nofun
  | object fs ih =>
    cases w with
    | object gs =>
      have hvalues (hs : List (String × Value)) :
          List.Forall₂ (same · · = true) (fs.toList.map (·.2)) (hs.map (·.2)) ↔
            List.Forall₂ Same (fs.toList.map (·.2)) (hs.map (·.2)) :=
        forall₂_same_congr (List.forall_mem_map.2 fun f hf _ => ih f hf)
      rw [same_object_iff]
      constructor
      · rintro ⟨hs, hmatch, hperm⟩
        obtain ⟨hkeys, hsame⟩ := forall₂_member_iff.1 hmatch
        exact .object hkeys ((hvalues hs).1 hsame) hperm
      · rintro (_ | _ | _ | _ | _ | ⟨hkeys, hsame, hperm⟩)
        exact ⟨_, forall₂_member_iff.2 ⟨hkeys, (hvalues _).2 hsame⟩, hperm⟩
    | _ => exact iff_of_false nofun nofun

end Value

end CellGraph

import JobMarkup.Proofs.VariableUses
import Mathlib.Data.Finset.Card
import Mathlib.Data.List.Perm.Subperm

/-!
# References are grouped by variable

A collection holds one group of uses for each variable. The groups come in the order of the first use
of their variables, and in each group the uses come in the order in which they have been added. Two
collections are the same if their groups are, in whatever order the groups come: it does not matter
how the uses of one variable have been mixed with those of another.

All of this follows from two traits of the entries: they come in the order in which variables have
been new, and comparing entries does not look at their order. So it holds of every map with these
traits, and each presents the same collection.
-/

namespace JobMarkup.Variable

namespace References

/-! ## One entry for each variable -/

/-- A further use opens no second group for a variable. -/
theorem nodup_identifiers_add {references : References} (h : references.identifiers.Nodup)
    (reference : Reference) : (references.add reference).identifiers.Nodup := by
  rw [identifiers_add]
  split
  · exact h
  · next hnew =>
    rw [← List.concat_eq_append]
    exact h.concat hnew

/-- Any number of further uses open no second group for a variable. -/
theorem nodup_identifiers_addAll {references : References} (h : references.identifiers.Nodup)
    (added : List Reference) : (references.addAll added).identifiers.Nodup := by
  induction added generalizing references with
  | nil => exact h
  | cons reference rest ih => exact ih (nodup_identifiers_add h reference)

/-- The variables of a collection are those that have uses. -/
theorem isSome_get?_iff {references : References} {identifier : Identifier} :
    (references.get? identifier).isSome = true ↔ identifier ∈ references.identifiers := by
  rw [get?, List.lookup_isSome_iff, identifiers, List.mem_map]
  simp only [beq_iff_eq, @eq_comm _ identifier]

/-- An entry is found by its variable if no other entry has it. -/
theorem lookup_of_mem {entries : List (Identifier × List Span)} {entry : Identifier × List Span}
    (h : (entries.map Prod.fst).Nodup) (hmem : entry ∈ entries) :
    entries.lookup entry.1 = some entry.2 := by
  induction entries with
  | nil => exact absurd hmem List.not_mem_nil
  | cons first rest ih =>
    obtain ⟨habsent, hrest⟩ := List.nodup_cons.mp h
    rcases List.mem_cons.mp hmem with rfl | hbehind
    · rw [List.lookup_cons, beq_self_eq_true]
    · have hne : (entry.1 == first.1) = false := by
        refine beq_eq_false_iff_ne.mpr fun heq => habsent ?_
        exact heq ▸ List.mem_map_of_mem hbehind
      rw [List.lookup_cons, hne]
      exact ih hrest hbehind

section

variable {references a b : References}

/-- With one group for each variable, a group is what is found under its variable. -/
theorem get?_of_mem_entries (h : references.identifiers.Nodup) {entry : Identifier × List Span}
    (hmem : entry ∈ references.entries) : references.get? entry.1 = some entry.2 :=
  lookup_of_mem h hmem

/-- What is found under a variable is one of the groups. -/
theorem mem_entries_of_get? {identifier : Identifier} {spans : List Span}
    (h : references.get? identifier = some spans) : (identifier, spans) ∈ references.entries := by
  obtain ⟨before, behind, hentries, -⟩ := List.lookup_eq_some_iff.mp h
  rw [hentries]
  exact List.mem_append_right before List.mem_cons_self

/-- The groups come in the order of the variables. -/
theorem map_snd_entries (h : references.identifiers.Nodup) :
    references.entries.map Prod.snd
      = references.identifiers.map fun identifier => (references.get? identifier).getD [] := by
  rw [identifiers, List.map_map]
  refine List.map_congr_left fun entry hmem => ?_
  rw [Function.comp_apply, get?_of_mem_entries h hmem]
  rfl

/-- Collections that hold the same uses of each variable have equally many variables. -/
theorem size_eq_of_get?_eq (ha : a.identifiers.Nodup) (hb : b.identifiers.Nodup)
    (h : ∀ identifier, a.get? identifier = b.get? identifier) : a.size = b.size := by
  have hperm : a.identifiers.Perm b.identifiers := by
    refine (List.perm_ext_iff_of_nodup ha hb).mpr fun identifier => ?_
    rw [← isSome_get?_iff, h, isSome_get?_iff]
  simpa [identifiers, size] using hperm.length_eq

/-- Two collections are the same exactly if each variable has the same uses in both. -/
theorem same_iff (ha : a.identifiers.Nodup) (hb : b.identifiers.Nodup) :
    a.same b = true ↔ ∀ identifier, a.get? identifier = b.get? identifier := by
  rw [same, Bool.and_eq_true, beq_iff_eq, List.all_eq_true]
  constructor
  · rintro ⟨hsize, hentries⟩ identifier
    cases hget : a.get? identifier with
    | some spans => exact (beq_iff_eq.mp (hentries _ (mem_entries_of_get? hget))).symm
    | none =>
      -- as many variables, and all of the first collection in the second: there are no others
      have hsubset : a.identifiers ⊆ b.identifiers := by
        intro other hother
        obtain ⟨entry, hmem, rfl⟩ := List.mem_map.mp hother
        rw [← isSome_get?_iff, beq_iff_eq.mp (hentries entry hmem)]
        rfl
      have hperm : a.identifiers.Perm b.identifiers := by
        refine (ha.subperm hsubset).perm_of_length_le (Nat.le_of_eq ?_)
        simpa [identifiers, size] using hsize.symm
      have habsent : identifier ∉ b.identifiers := by
        rw [← hperm.mem_iff, ← isSome_get?_iff, hget]
        exact Bool.false_ne_true
      rw [← isSome_get?_iff, Option.not_isSome_iff_eq_none] at habsent
      exact habsent.symm
  · intro h
    refine ⟨size_eq_of_get?_eq ha hb h, fun entry hmem => ?_⟩
    rw [beq_iff_eq, ← h, get?_of_mem_entries ha hmem]

end

/-! ## Histories -/

/-- A collection that uses have been added to from the start has one group for each variable. -/
theorem nodup_identifiers_collected (added : List Reference) :
    (empty.addAll added).identifiers.Nodup := by
  have hempty : empty.identifiers.Nodup := List.nodup_nil
  exact nodup_identifiers_addAll hempty added

/-- A variable without an entry has no uses. -/
theorem getD_get?_addAll (added : List Reference) (identifier : Identifier) :
    ((empty.addAll added).get? identifier).getD [] = spansOf added identifier := by
  rw [get?_addAll]
  split
  · next h => exact h.symm
  · rfl

/-- All uses are the groups one after the other. -/
theorem spans_addAll (added : List Reference) :
    (empty.addAll added).spans
      = (empty.addAll added).identifiers.flatMap (spansOf added) := by
  rw [spans, List.flatMap_def, map_snd_entries (nodup_identifiers_collected added),
    List.flatMap_def]
  simp only [getD_get?_addAll]

/-- There are as many entries as there are variables among the uses. -/
theorem size_addAll (added : List Reference) :
    (empty.addAll added).size = (added.map Reference.identifier).toFinset.card := by
  have hmem : (added.map Reference.identifier).toFinset
      = (empty.addAll added).identifiers.toFinset := by
    refine List.toFinset.ext fun identifier => ?_
    rw [identifiers_addAll, List.mem_eraseDups]
  rw [hmem, List.toFinset_card_of_nodup (nodup_identifiers_collected added), identifiers,
    List.length_map, size]

/-- Two histories give the same collection exactly if they use each variable alike. -/
theorem same_addAll_iff (added other : List Reference) :
    (empty.addAll added).same (empty.addAll other) = true
      ↔ ∀ identifier, spansOf added identifier = spansOf other identifier := by
  rw [same_iff (nodup_identifiers_collected added) (nodup_identifiers_collected other)]
  refine forall_congr' fun identifier => ⟨fun h => ?_, fun h => ?_⟩
  · rw [← getD_get?_addAll, h, getD_get?_addAll]
  · rw [get?_addAll, get?_addAll, h]

end References

/-! ## Other maps -/

/-- What a collection of references needs of a map from variables to lists of spans. -/
structure OrderedMap (Map : Type) where
  empty : Map
  /-- Put a span behind those of a variable, or a variable with its first span. -/
  push : Map → Identifier → Span → Map
  keys : Map → List Identifier
  values : Map → List (List Span)
  get? : Map → Identifier → Option (List Span)
  size : Map → Nat
  equal : Map → Map → Bool

namespace OrderedMap

variable {Map : Type} (M : OrderedMap Map)

/-- The keys stay where they are, a new one comes behind them, and the order of the keys does not
matter for the comparison of maps. -/
structure Lawful : Prop where
  keys_empty : M.keys M.empty = []
  keys_push : ∀ map identifier span, M.keys (M.push map identifier span)
    = if identifier ∈ M.keys map then M.keys map else M.keys map ++ [identifier]
  get?_push : ∀ map identifier span other, M.get? (M.push map identifier span) other
    = if other = identifier then some ((M.get? map identifier).getD [] ++ [span])
      else M.get? map other
  isSome_get?_iff : ∀ map identifier,
    (M.get? map identifier).isSome = true ↔ identifier ∈ M.keys map
  values_eq : ∀ map, M.values map = (M.keys map).map fun key => (M.get? map key).getD []
  size_eq : ∀ map, M.size map = (M.keys map).length
  equal_iff : ∀ a b, M.equal a b = true ↔ ∀ identifier, M.get? a identifier = M.get? b identifier

/-- Put uses into a map one after the other. -/
def collect (added : List Reference) : Map :=
  added.foldl (fun map reference => M.push map reference.identifier reference.span) M.empty

/-- A map holds the variables of a collection in their order, and the uses of each. -/
structure Presents (map : Map) (references : References) : Prop where
  keys : M.keys map = references.identifiers
  get? : ∀ identifier, M.get? map identifier = references.get? identifier

variable {M}

/-- A use that is put into a map is a use that is added to the collection. -/
theorem Lawful.presents_push (h : M.Lawful) {map : Map} {references : References}
    (hmap : M.Presents map references) (reference : Reference) :
    M.Presents (M.push map reference.identifier reference.span) (references.add reference) where
  keys := by
    rw [h.keys_push, hmap.keys, References.identifiers_add]
  get? identifier := by
    rw [h.get?_push, hmap.get?, hmap.get?, References.get?_add]
    split
    · next heq => rw [heq]
    · rfl

/-- Whatever map uses are put into, it presents the collection that they are added to. -/
theorem Lawful.presents_collect (h : M.Lawful) (added : List Reference) :
    M.Presents (M.collect added) (References.empty.addAll added) := by
  induction added using List.reverseRecOn with
  | nil =>
    refine ⟨h.keys_empty, fun identifier => ?_⟩
    have hnone : ¬ (M.get? M.empty identifier).isSome = true := by
      rw [h.isSome_get?_iff, h.keys_empty]
      exact List.not_mem_nil
    exact Option.not_isSome_iff_eq_none.mp hnone
  | append_singleton added reference ih =>
    rw [collect, List.foldl_concat, References.addAll_append]
    exact h.presents_push ih reference

/-- All spans that a lawful map holds are those of the collection, group by group. -/
theorem Lawful.values_collect (h : M.Lawful) (added : List Reference) :
    (M.values (M.collect added)).flatten = (References.empty.addAll added).spans := by
  have hpresents := h.presents_collect added
  rw [h.values_eq, hpresents.keys, References.spans_addAll, List.flatMap_def]
  simp only [hpresents.get?, References.getD_get?_addAll]

/-- A lawful map has as many keys as the collection has variables. -/
theorem Lawful.size_collect (h : M.Lawful) (added : List Reference) :
    M.size (M.collect added) = (References.empty.addAll added).size := by
  rw [h.size_eq, (h.presents_collect added).keys, References.identifiers, List.length_map]
  rfl

/-- Two maps that have collected uses are equal exactly if the collections are the same. -/
theorem Lawful.equal_collect (h : M.Lawful) (added other : List Reference) :
    M.equal (M.collect added) (M.collect other)
      = (References.empty.addAll added).same (References.empty.addAll other) := by
  rw [Bool.eq_iff_iff, h.equal_iff,
    References.same_iff (References.nodup_identifiers_collected added)
      (References.nodup_identifiers_collected other)]
  simp only [(h.presents_collect added).get?, (h.presents_collect other).get?]

/-- Collections in which no variable has two entries, as a map. -/
def ofReferences : OrderedMap {references : References // references.identifiers.Nodup} where
  empty := ⟨References.empty, List.nodup_nil⟩
  push references identifier span :=
    ⟨references.1.add ⟨identifier, span⟩, References.nodup_identifiers_add references.2 _⟩
  keys references := references.1.identifiers
  values references := references.1.entries.map Prod.snd
  get? references := references.1.get?
  size references := references.1.size
  equal a b := a.1.same b.1

/-- Collections are lawful as a map themselves, so what is asked of maps can be met. -/
theorem lawful_ofReferences : ofReferences.Lawful where
  keys_empty := rfl
  keys_push references identifier span := References.identifiers_add references.1 ⟨identifier, span⟩
  get?_push references identifier span other := by
    refine (References.get?_add references.1 ⟨identifier, span⟩ other).trans ?_
    by_cases h : other = identifier
    · rw [if_pos h, if_pos h, h]
      rfl
    · rw [if_neg h, if_neg h]
      rfl
  isSome_get?_iff _ _ := References.isSome_get?_iff
  values_eq references := References.map_snd_entries references.2
  size_eq references := (List.length_map _).symm
  equal_iff a b := References.same_iff a.2 b.2

end OrderedMap

namespace References

/-! ## Grouping -/

/-- Uses that have been added one after the other are grouped by variable. The variables come in the
order of their first use, none of them twice, and there are as many as are used. The group of a
variable holds the spans that have been added under it, in their order; a variable that is not used has
no group. All spans are the groups one after the other, which are the added spans in some order. Two
collections are the same exactly if each variable has been used alike, however its uses were mixed with
those of others. Variables are told apart by namespace and key, also if they are written alike. And a
map of any other make that keeps its keys in order and compares without it presents the same. -/
theorem addAll_groups (added other : List Reference) :
    (empty.addAll added).identifiers = (added.map Reference.identifier).eraseDups
      ∧ (empty.addAll added).identifiers.Nodup
      ∧ (empty.addAll added).size = (added.map Reference.identifier).toFinset.card
      ∧ (∀ identifier, (empty.addAll added).get? identifier
        = if spansOf added identifier = [] then none else some (spansOf added identifier))
      ∧ (empty.addAll added).spans = (empty.addAll added).identifiers.flatMap (spansOf added)
      ∧ (empty.addAll added).spans.Perm (added.map Reference.span)
      ∧ ((empty.addAll added).same (empty.addAll other) = true
        ↔ ∀ identifier, spansOf added identifier = spansOf other identifier)
      ∧ (∀ (a b : Identifier) (span : Span), a ≠ b →
        ((empty.addAll added).add ⟨a, span⟩).get? a = some (spansOf added a ++ [span])
          ∧ ((empty.addAll added).add ⟨a, span⟩).get? b = (empty.addAll added).get? b)
      ∧ ∀ {Map : Type} (M : OrderedMap Map), M.Lawful →
        M.keys (M.collect added) = (empty.addAll added).identifiers
          ∧ (∀ identifier, M.get? (M.collect added) identifier
            = (empty.addAll added).get? identifier)
          ∧ (M.values (M.collect added)).flatten = (empty.addAll added).spans
          ∧ M.size (M.collect added) = (empty.addAll added).size
          ∧ M.equal (M.collect added) (M.collect other)
            = (empty.addAll added).same (empty.addAll other) := by
  refine ⟨identifiers_addAll added, nodup_identifiers_collected added, size_addAll added,
    get?_addAll added, spans_addAll added, spans_addAll_perm .empty added,
    same_addAll_iff added other, fun a b span hne => ?_, fun M hM => ?_⟩
  · rw [get?_add, get?_add, if_pos rfl, if_neg (Ne.symm hne), getD_get?_addAll]
    exact ⟨rfl, rfl⟩
  · have hpresents := hM.presents_collect added
    exact ⟨hpresents.keys, hpresents.get?, hM.values_collect added, hM.size_collect added,
      hM.equal_collect added other⟩

/-- Two variables that are written alike, the uses of one of them mixed with the use of the other in
two ways. -/
theorem addAll_groups_mixed :
    let a : Identifier := ⟨"n", "x/y"⟩
    let b : Identifier := ⟨"n/x", "y"⟩
    let first := Span.point (.ofNat 0) ⟨0, 0⟩
    let second := Span.point (.ofNat 0) ⟨0, 5⟩
    let third := Span.point (.ofNat 0) ⟨1, 0⟩
    let added : List Reference := [⟨a, first⟩, ⟨b, second⟩, ⟨a, third⟩]
    let other : List Reference := [⟨b, second⟩, ⟨a, first⟩, ⟨a, third⟩]
    a ≠ b ∧ a.toText = b.toText ∧ OrderedMap.ofReferences.Lawful
      ∧ (empty.addAll added).identifiers = [a, b]
      ∧ (empty.addAll other).identifiers = [b, a]
      ∧ (empty.addAll added).get? a = some [first, third]
      ∧ (empty.addAll added).spans = [first, third, second]
      ∧ (empty.addAll added).same (empty.addAll other) = true
      ∧ ((empty.addAll added).add ⟨a, second⟩).get? b = some [second]
      ∧ OrderedMap.ofReferences.equal (OrderedMap.ofReferences.collect added)
        (OrderedMap.ofReferences.collect other) = true := by
  intro a b first second third added other
  have hne : a ≠ b := by decide
  obtain ⟨hidentifiers, -, -, hget, hspans, -, hsame, hapart, hmap⟩ := addAll_groups added other
  obtain ⟨hother, -⟩ := addAll_groups other added
  have halike (identifier : Identifier) :
      spansOf added identifier = spansOf other identifier := by
    by_cases ha : a = identifier
    · subst ha
      rfl
    · by_cases hb : b = identifier
      · subst hb
        rfl
      · simp [spansOf, added, other, ha, hb]
  have hequal := hsame.mpr halike
  obtain ⟨-, -, -, -, hmaps⟩ := hmap OrderedMap.ofReferences OrderedMap.lawful_ofReferences
  refine ⟨hne, by decide, OrderedMap.lawful_ofReferences, hidentifiers, hother, hget a, ?_, hequal,
    ((hapart a b second hne).2.trans (hget b)), hmaps.trans hequal⟩
  rw [hspans, hidentifiers]
  rfl

end References

end JobMarkup.Variable

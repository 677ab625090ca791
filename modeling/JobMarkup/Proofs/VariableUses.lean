import JobMarkup.Variable.References
import JobMarkup.Variable.Values
import Mathlib.Data.List.Induction

/-!
# Uses of variables

What a collection of references keeps of the uses that are added to it: the uses of each variable
in their order, the variables in the order of their first use, all uses up to order, and how often
each variable is used. Where values are assigned to variables by one rule, each variable has the
value that the rule gives.
-/

namespace JobMarkup.Variable

namespace References

/-- All uses, grouped by variable. -/
def all (references : References) : List Reference :=
  references.entries.flatMap fun entry => entry.2.map (⟨entry.1, ·⟩)

/-- The spans of all uses are those of the collection, in the same order. -/
theorem map_span_all (references : References) :
    references.all.map Reference.span = references.spans := by
  simp [all, spans, List.map_flatMap, Function.comp_def]

/-- Adding a use adds nothing else to the uses. -/
theorem all_add_perm (references : References) (reference : Reference) :
    (references.add reference).all.Perm (references.all ++ [reference]) := by
  obtain ⟨entries⟩ := references
  rw [add, all, all]
  induction entries with
  | nil => simp [addTo]
  | cons entry rest ih =>
    obtain ⟨identifier, spans⟩ := entry
    rw [addTo]
    split
    · next h =>
      obtain rfl : identifier = reference.identifier := h
      simp only [List.flatMap_cons, List.map_append, List.append_assoc]
      exact List.perm_append_comm.append_left _
    · simp only [List.flatMap_cons, List.append_assoc]
      exact ih.append_left _

/-- The uses of a collection are those that have been added, in some order. -/
theorem all_addAll_perm (references : References) (added : List Reference) :
    (references.addAll added).all.Perm (references.all ++ added) := by
  induction added generalizing references with
  | nil => simp
  | cons reference rest ih =>
    have hall := (ih (references.add reference)).trans
      ((references.all_add_perm reference).append_right rest)
    simpa [addAll] using hall

/-- The spans of uses that have been added are the spans of the uses, in some order. -/
theorem spans_addAll_perm (references : References) (added : List Reference) :
    (references.addAll added).spans.Perm (references.spans ++ added.map Reference.span) := by
  have hmap := (references.all_addAll_perm added).map Reference.span
  rwa [List.map_append, map_span_all, map_span_all] at hmap

/-- A use that is added brings in its own variable and no other. -/
theorem mem_addTo (identifier : Identifier) (added : Reference)
    (entries : List (Identifier × List Span)) :
    identifier ∈ (addTo added entries).map Prod.fst
      ↔ identifier ∈ entries.map Prod.fst ∨ identifier = added.identifier := by
  induction entries with
  | nil => simp [addTo]
  | cons entry rest ih =>
    obtain ⟨other, spans⟩ := entry
    rw [addTo]
    split
    · next h =>
      simp only [← h, List.map_cons, List.mem_cons]
      exact ⟨Or.inl, fun hmem => hmem.elim id Or.inl⟩
    · simp only [List.map_cons, List.mem_cons, ih, or_assoc]

/-- The variables of a collection are those that have been added. -/
theorem mem_identifiers_addAll (identifier : Identifier) (references : References)
    (added : List Reference) :
    identifier ∈ (references.addAll added).identifiers
      ↔ identifier ∈ references.identifiers ∨ identifier ∈ added.map Reference.identifier := by
  induction added generalizing references with
  | nil => simp
  | cons reference rest ih =>
    have hadd : identifier ∈ (references.add reference).identifiers
        ↔ identifier ∈ references.identifiers ∨ identifier = reference.identifier :=
      mem_addTo identifier reference references.entries
    refine (ih (references.add reference)).trans ?_
    rw [hadd, List.map_cons, List.mem_cons, or_assoc]

/-- Under the variable of a use that is added, its span stands behind the others; all else is found
as before. -/
theorem lookup_addTo (reference : Reference) (identifier : Identifier)
    (entries : List (Identifier × List Span)) :
    (addTo reference entries).lookup identifier
      = if identifier = reference.identifier then
          some ((entries.lookup identifier).getD [] ++ [reference.span])
        else entries.lookup identifier := by
  induction entries with
  | nil =>
    by_cases h : identifier = reference.identifier
    · simp [addTo, h]
    · have hne : (identifier == reference.identifier) = false := by simpa using h
      simp [addTo, List.lookup_cons, h, hne]
  | cons entry rest ih =>
    obtain ⟨first, spans⟩ := entry
    rw [addTo]
    by_cases hfirst : first = reference.identifier
    · by_cases h : identifier = reference.identifier
      · simp [hfirst, h]
      · have hne : (identifier == reference.identifier) = false := by simpa using h
        simp [List.lookup_cons, hfirst, h, hne]
    · rw [if_neg hfirst, List.lookup_cons, ih, List.lookup_cons]
      by_cases h : identifier = first
      · simp [h, hfirst]
      · have hne : (identifier == first) = false := by simpa using h
        simp [hne]

/-- Adding a use changes the uses of its variable alone. -/
theorem get?_add (references : References) (reference : Reference) (identifier : Identifier) :
    (references.add reference).get? identifier
      = if identifier = reference.identifier then
          some ((references.get? identifier).getD [] ++ [reference.span])
        else references.get? identifier :=
  lookup_addTo reference identifier references.entries

/-- The spans of the uses of one variable. -/
def spansOf (uses : List Reference) (identifier : Identifier) : List Span :=
  (uses.filter fun reference => reference.identifier = identifier).map Reference.span

/-- A collection holds the uses of each variable in the order in which they have been added. -/
theorem get?_addAll (added : List Reference) (identifier : Identifier) :
    (empty.addAll added).get? identifier
      = if spansOf added identifier = [] then none else some (spansOf added identifier) := by
  induction added using List.reverseRecOn with
  | nil => rfl
  | append_singleton added reference ih =>
    have hadd := get?_add (empty.addAll added) reference identifier
    have hspans : spansOf (added ++ [reference]) identifier
        = if identifier = reference.identifier then spansOf added identifier ++ [reference.span]
          else spansOf added identifier := by
      by_cases h : identifier = reference.identifier
      · simp [spansOf, h]
      · simp [spansOf, h, Ne.symm h]
    rw [addAll_append, hspans]
    refine hadd.trans ?_
    rw [ih]
    split
    · by_cases hnil : spansOf added identifier = [] <;> simp [hnil]
    · rfl

/-- Variables keep their places when a use is added, and a new one comes behind them. -/
theorem map_fst_addTo (reference : Reference) (entries : List (Identifier × List Span)) :
    (addTo reference entries).map Prod.fst
      = if reference.identifier ∈ entries.map Prod.fst then entries.map Prod.fst
        else entries.map Prod.fst ++ [reference.identifier] := by
  induction entries with
  | nil => simp [addTo]
  | cons entry rest ih =>
    obtain ⟨first, spans⟩ := entry
    rw [addTo]
    by_cases hfirst : first = reference.identifier
    · simp [hfirst]
    · rw [if_neg hfirst, List.map_cons, ih]
      simp only [List.map_cons, List.mem_cons, Ne.symm hfirst, false_or]
      split <;> rfl

/-- The variable of an added use comes behind all others unless it has been used before. -/
theorem identifiers_add (references : References) (reference : Reference) :
    (references.add reference).identifiers
      = if reference.identifier ∈ references.identifiers then references.identifiers
        else references.identifiers ++ [reference.identifier] :=
  map_fst_addTo reference references.entries

/-- The variables come in the order of their first use. -/
theorem identifiers_addAll (added : List Reference) :
    (empty.addAll added).identifiers = (added.map Reference.identifier).eraseDups := by
  induction added using List.reverseRecOn with
  | nil => rfl
  | append_singleton added reference ih =>
    have hadd := identifiers_add (empty.addAll added) reference
    rw [addAll_append, List.map_append, List.eraseDups_append]
    refine hadd.trans ?_
    rw [ih]
    generalize added.map Reference.identifier = before
    by_cases h : reference.identifier ∈ before <;> simp [List.removeAll, List.eraseDups_cons, h]

/-- The variables of a collection and how often each is used. -/
def uses (references : References) : List (Identifier × Nat) :=
  references.entries.map fun entry => (entry.1, entry.2.length)

/-- Entries that count as many uses for each variable still do so when a use of one variable is
added to both. -/
theorem map_length_addTo_congr {first second : Reference}
    (hidentifier : first.identifier = second.identifier) {a b : List (Identifier × List Span)}
    (h : (a.map fun entry => (entry.1, entry.2.length))
      = b.map fun entry => (entry.1, entry.2.length)) :
    ((addTo first a).map fun entry => (entry.1, entry.2.length))
      = (addTo second b).map fun entry => (entry.1, entry.2.length) := by
  induction a generalizing b with
  | nil =>
    obtain rfl := List.map_eq_nil_iff.mp h.symm
    simp [addTo, hidentifier]
  | cons entry rest ih =>
    obtain ⟨entry', rest', rfl, hentry, hrest⟩ := List.map_eq_cons_iff.mp h.symm
    obtain ⟨hname, hlength⟩ := Prod.mk.inj hentry
    rw [addTo, addTo, hidentifier, hname]
    split
    · simp [hlength, hrest]
    · simp [hlength, ih hrest.symm]

/-- How often variables are used depends on nothing but their uses. -/
theorem uses_addAll_congr {added added' : List Reference}
    (hadded : added.map Reference.identifier = added'.map Reference.identifier)
    {references references' : References} (h : references.uses = references'.uses) :
    (references.addAll added).uses = (references'.addAll added').uses := by
  induction added generalizing added' references references' with
  | nil =>
    obtain rfl := List.map_eq_nil_iff.mp hadded.symm
    exact h
  | cons reference rest ih =>
    obtain ⟨reference', rest', rfl, hidentifier, hrest⟩ := List.map_eq_cons_iff.mp hadded.symm
    exact ih hrest.symm (map_length_addTo_congr hidentifier.symm h)

end References

namespace Values

variable {value : Identifier → String} {identifiers : List Identifier} {identifier : Identifier}

/-- Values that are set one after the other by one rule are those of the rule, and no other variable
changes. -/
theorem get_foldl_set (values : Values) :
    ((identifiers.map fun other => (other, value other)).foldl
      (fun values pair => values.set pair.1 pair.2) values).get identifier
        = if identifier ∈ identifiers then value identifier else values.get identifier := by
  induction identifiers generalizing values with
  | nil => rfl
  | cons other rest ih =>
    rw [List.map_cons, List.foldl_cons, ih, get_set]
    by_cases hrest : identifier ∈ rest
    · simp [hrest]
    · by_cases hother : identifier = other
      · simp [hother]
      · simp [hother, hrest]

/-- Of values that are assigned by one rule, each assigned variable has its own, and no other variable
has any. -/
theorem get_ofList_map_eq :
    (ofList (identifiers.map fun other => (other, value other))).get identifier
      = if identifier ∈ identifiers then value identifier else "" :=
  get_foldl_set empty

/-- The value of a variable among those that are assigned by one rule. -/
theorem get_ofList_map (h : identifier ∈ identifiers) :
    (ofList (identifiers.map fun other => (other, value other))).get identifier
      = value identifier := by
  rw [get_ofList_map_eq, if_pos h]

end Values

end JobMarkup.Variable

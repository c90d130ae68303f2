import Bytecode.Proofs.LoadElimination.KnownFields
import Mathlib.Data.List.Nodup
import Mathlib.Logic.Function.Basic
/-!
# The known fields as one map

What is known of fields is kept in four tables, two of them nested. It behaves as one plain map would, which takes a field
and its receiver, or a static field, to what the field is known to hold and whether that is final. A fact stands in the map
exactly if it stands in the part of the tables that its finality names, so a key stands in one part at most, and since
no field is left without a receiver the tables are empty exactly if the map is.

The comparison covers any number of maps that are changed and copied in any order: a copy goes its own way from then on.
-/

namespace Bytecode

/-! ### Tables -/

namespace Table

variable {κ ν : Type} [DecidableEq κ]

/-- Keeps the entries that pass a test. -/
def filter (table : Table κ ν) (keep : κ → ν → Bool) : Table κ ν :=
  ⟨table.entries.filter fun entry => keep entry.1 entry.2, table.distinct.sublist (List.filter_sublist.map _)⟩

theorem mem_entries {table : Table κ ν} {key : κ} {value : ν} :
    (key, value) ∈ table.entries ↔ table.find? key = some value := by
  unfold find?
  constructor
  · intro hmem
    cases hfound : table.entries.find? (·.1 = key) with
    | none => simpa using List.find?_eq_none.1 hfound _ hmem
    | some entry =>
      have hkey : entry.1 = key := by simpa using List.find?_some hfound
      have hsame := List.inj_on_of_nodup_map table.distinct (List.mem_of_find?_eq_some hfound) hmem hkey
      rw [hsame]
      rfl
  · intro hfound
    obtain ⟨entry, hentry, rfl⟩ := Option.map_eq_some_iff.1 hfound
    have hkey : entry.1 = key := by simpa using List.find?_some hentry
    rw [← hkey]
    exact List.mem_of_find?_eq_some hentry

omit [DecidableEq κ] in
theorem entries_nodup (table : Table κ ν) : table.entries.Nodup :=
  List.Nodup.of_map _ table.distinct

private theorem find?_filter_eq_some {table : Table κ ν} {keep : κ → ν → Bool} {key : κ} {value : ν} :
    (table.filter keep).find? key = some value ↔ table.find? key = some value ∧ keep key value = true := by
  rw [← mem_entries, ← mem_entries, filter, List.mem_filter]

end Table

/-! ### The reference map -/

/-- What a fact is about: a field of an object, or a static field. -/
inductive FactKey where
  | onObject (field : FieldId) (object : ValueId)
  | static (field : FieldId)
deriving DecidableEq

namespace FactKey

def isOnObject : FactKey → Bool
  | .onObject _ _ => true
  | .static _ => false

/-- The fact is about this instance field, on whichever object. -/
def isInstanceOf (field : FieldId) : FactKey → Bool
  | .onObject other _ => other = field
  | .static _ => false

end FactKey

structure Fact where
  isFinal : Bool
  known : Known
deriving DecidableEq

abbrev FactMap := Table FactKey Fact

/-- Forgets what is not final and lies in the scope. -/
def FactMap.discard (map : FactMap) (scope : FactKey → Bool) : FactMap :=
  map.filter fun key fact => fact.isFinal || !scope key

/-- The changes that known fields undergo. -/
inductive FactChange where
  | recordInstance (isFinal : Bool) (field : FieldId) (object : ValueId) (known : Known)
  | recordStatic (isFinal : Bool) (field : FieldId) (known : Known)
  | forgetInstance (field : FieldId) (object : ValueId)
  | forgetNonFinalInstances (field : FieldId)
  | forgetStatic (field : FieldId)
  | forgetNonFinalStatic (field : FieldId)
  | clearNonFinalInstances
  | clearNonFinalStatics
  | clearNonFinal

namespace FactChange

def onTables (facts : KnownFields) : FactChange → KnownFields
  | .recordInstance isFinal field object known => facts.recordInstance isFinal field object known
  | .recordStatic isFinal field known => facts.recordStatic isFinal field known
  | .forgetInstance field object => facts.forgetInstance field object
  | .forgetNonFinalInstances field => facts.forgetNonFinalInstances field
  | .forgetStatic field => facts.forgetStatic field
  | .forgetNonFinalStatic field => facts.forgetNonFinalStatic field
  | .clearNonFinalInstances => facts.clearNonFinalInstances
  | .clearNonFinalStatics => facts.clearNonFinalStatics
  | .clearNonFinal => facts.clearNonFinal

/-- A fact is written over whatever its key had, one key is forgotten, or what is not final in a scope. -/
def onMap (map : FactMap) : FactChange → FactMap
  | .recordInstance isFinal field object known => map.insert (.onObject field object) ⟨isFinal, known⟩
  | .recordStatic isFinal field known => map.insert (.static field) ⟨isFinal, known⟩
  | .forgetInstance field object => map.erase (.onObject field object)
  | .forgetNonFinalInstances field => map.discard (·.isInstanceOf field)
  | .forgetStatic field => map.erase (.static field)
  | .forgetNonFinalStatic field => map.discard (· = .static field)
  | .clearNonFinalInstances => map.discard (·.isOnObject)
  | .clearNonFinalStatics => map.discard (!·.isOnObject)
  | .clearNonFinal => map.discard fun _ => true

end FactChange

/-- A step of work with maps in numbered places: one of them changes, or is replaced by a copy of another. -/
inductive FactStep where
  | change (place : Nat) (change : FactChange)
  | copy (source target : Nat)

namespace FactStep

variable {α : Type}

def apply (change : α → FactChange → α) (maps : Nat → α) : FactStep → Nat → α
  | .change place made => Function.update maps place (change (maps place) made)
  | .copy source target => Function.update maps target (maps source)

/-- The maps after some steps, all of them empty at the start. -/
def work (change : α → FactChange → α) (empty : α) (steps : List FactStep) : Nat → α :=
  steps.foldl (apply change) fun _ => empty

end FactStep

/-! ### One part of the tables -/

namespace ReceiverTable

/-- The facts of the table, one for each field and receiver. -/
def pairs (table : ReceiverTable) : List ((FieldId × ValueId) × Known) :=
  table.entries.flatMap fun (field, receivers) => receivers.entries.map fun (object, known) => ((field, object), known)

private theorem length_pairs (table : ReceiverTable) : table.pairs.length = table.pairCount := by
  simp [pairs, pairCount, List.length_flatMap]

private theorem mem_pairs {table : ReceiverTable} {field : FieldId} {object : ValueId} {known : Known} :
    ((field, object), known) ∈ table.pairs ↔ table.lookup? field object = some known := by
  rw [lookup?, Option.bind_eq_some_iff]
  simp only [pairs, List.mem_flatMap, List.mem_map, Prod.mk.injEq, Prod.exists]
  constructor
  · rintro ⟨_, receivers, hreceivers, _, _, hentry, ⟨rfl, rfl⟩, rfl⟩
    exact ⟨receivers, Table.mem_entries.1 hreceivers, Table.mem_entries.1 hentry⟩
  · rintro ⟨receivers, hreceivers, hentry⟩
    exact ⟨field, receivers, Table.mem_entries.2 hreceivers, object, known, Table.mem_entries.2 hentry, ⟨rfl, rfl⟩, rfl⟩

private theorem pairs_nodup (table : ReceiverTable) : table.pairs.Nodup := by
  rw [pairs, List.nodup_flatMap]
  constructor
  · intro entry _
    refine entry.2.entries_nodup.map ?_
    intro left right heq
    cases left
    cases right
    simp_all
  · -- the facts of two entries differ in their field
    refine (List.pairwise_map.1 table.distinct).imp ?_
    intro left right hne fact hleft hright
    obtain ⟨_, -, rfl⟩ := List.mem_map.1 hleft
    obtain ⟨_, -, heq⟩ := List.mem_map.1 hright
    simp only [Prod.mk.injEq] at heq
    exact hne heq.1.1.symm

/-- No field is left without a receiver. -/
def NoneEmpty (table : ReceiverTable) : Prop :=
  ∀ field receivers, table.find? field = some receivers → receivers.isEmpty = false

namespace NoneEmpty

variable {table : ReceiverTable}

theorem empty : NoneEmpty Table.empty := by
  intro field receivers hfound
  simp at hfound

theorem insert (h : table.NoneEmpty) {receivers : Table ValueId Known} (hreceivers : receivers.isEmpty = false)
    (field : FieldId) : NoneEmpty (table.insert field receivers) := by
  intro other found hfound
  rw [Table.find?_insert] at hfound
  split at hfound
  · rw [← Option.some.inj hfound]
    exact hreceivers
  · exact h other found hfound

theorem erase (h : table.NoneEmpty) (field : FieldId) : NoneEmpty (table.erase field) := by
  intro other found hfound
  rw [Table.find?_erase] at hfound
  split at hfound
  · cases hfound
  · exact h other found hfound

theorem record (h : table.NoneEmpty) (field : FieldId) (object : ValueId) (known : Known) :
    (table.record field object known).NoneEmpty := by
  refine h.insert ?_ field
  simp [Table.isEmpty, Table.insert]

theorem forget (h : table.NoneEmpty) (field : FieldId) (object : ValueId) : (table.forget field object).NoneEmpty := by
  unfold ReceiverTable.forget
  split
  · exact h
  · split
    · dsimp only
      split
      · exact h.erase field
      · next hrest => exact h.insert (Bool.eq_false_iff.2 hrest) field
    · exact h

/-- Without an empty field, no pair means no field. -/
theorem isEmpty_iff (h : table.NoneEmpty) : table.isEmpty = true ↔ table.pairCount = 0 := by
  rw [Table.isEmpty, List.isEmpty_iff, pairCount, List.length_eq_zero_iff, List.flatMap_eq_nil_iff]
  constructor
  · intro hnil
    simp [hnil]
  · intro hempty
    refine List.eq_nil_iff_forall_not_mem.2 ?_
    rintro ⟨field, receivers⟩ hmem
    have hnil : receivers.entries = [] := hempty (field, receivers) hmem
    have hnonempty := h field receivers (Table.mem_entries.1 hmem)
    simp [Table.isEmpty, hnil] at hnonempty

end NoneEmpty

end ReceiverTable

/-! ### The tables against the map -/

namespace KnownFields

/-- What one part of the tables says of a key. -/
def fact? (facts : KnownFields) (isFinal : Bool) : FactKey → Option Known
  | .onObject field object => facts.instanceFact? isFinal field object
  | .static field => facts.staticFact? isFinal field

/-- All facts of the tables. -/
def entries (facts : KnownFields) : List (FactKey × Fact) :=
  let instances (isFinal : Bool) (table : ReceiverTable) : List (FactKey × Fact) :=
    table.pairs.map fun ((field, object), known) => (.onObject field object, ⟨isFinal, known⟩)
  let statics (isFinal : Bool) (table : Table FieldId Known) : List (FactKey × Fact) :=
    table.entries.map fun (field, known) => (.static field, ⟨isFinal, known⟩)
  instances true facts.finalInstance ++ instances false facts.nonFinalInstance ++ statics true facts.finalStatic ++
    statics false facts.nonFinalStatic

theorem length_entries (facts : KnownFields) : facts.entries.length = facts.size := by
  simp [entries, size, Table.size, ReceiverTable.length_pairs, Nat.add_assoc]

theorem mem_entries {facts : KnownFields} {key : FactKey} {fact : Fact} :
    (key, fact) ∈ facts.entries ↔ facts.fact? fact.isFinal key = some fact.known := by
  obtain ⟨isFinal, known⟩ := fact
  cases key <;> cases isFinal <;>
    simp [entries, fact?, instanceFact?, staticFact?, ReceiverTable.mem_pairs, Table.mem_entries]

theorem entries_nodup (facts : KnownFields) : facts.entries.Nodup := by
  have hinstances : ∀ (isFinal : Bool) (table : ReceiverTable),
      (table.pairs.map fun ((field, object), known) => (FactKey.onObject field object, Fact.mk isFinal known)).Nodup := by
    intro isFinal table
    refine table.pairs_nodup.map ?_
    rintro ⟨⟨_, _⟩, _⟩ ⟨⟨_, _⟩, _⟩ heq
    simp_all
  have hstatics : ∀ (isFinal : Bool) (table : Table FieldId Known),
      (table.entries.map fun (field, known) => (FactKey.static field, Fact.mk isFinal known)).Nodup := by
    intro isFinal table
    refine table.entries_nodup.map ?_
    rintro ⟨_, _⟩ ⟨_, _⟩ heq
    simp_all
  simp only [entries, List.nodup_append', hinstances, hstatics, true_and]
  refine ⟨⟨?_, ?_⟩, ?_⟩ <;>
  · intro entry hleft hright
    simp only [List.mem_append, List.mem_map] at hleft hright
    grind

variable (facts : KnownFields) (part isFinal : Bool) (field : FieldId) (object : ValueId) (known : Known)

private theorem fact?_recordInstance (key : FactKey) :
    (facts.recordInstance isFinal field object known).fact? part key
      = if key = .onObject field object then (if part = isFinal then some known else none) else facts.fact? part key := by
  cases key <;> simp [fact?, instanceFact?_recordInstance]

private theorem fact?_recordStatic (key : FactKey) :
    (facts.recordStatic isFinal field known).fact? part key
      = if key = .static field then (if part = isFinal then some known else none) else facts.fact? part key := by
  cases key <;> simp [fact?, staticFact?_recordStatic]

private theorem fact?_forgetInstance (key : FactKey) :
    (facts.forgetInstance field object).fact? part key
      = if key = .onObject field object then none else facts.fact? part key := by
  cases key <;> simp [fact?, instanceFact?_forgetInstance]

private theorem fact?_forgetStatic (key : FactKey) :
    (facts.forgetStatic field).fact? part key = if key = .static field then none else facts.fact? part key := by
  cases key <;> simp [fact?, staticFact?_forgetStatic]

private theorem fact?_forgetNonFinalInstances (key : FactKey) :
    (facts.forgetNonFinalInstances field).fact? part key
      = if part = false ∧ key.isInstanceOf field = true then none else facts.fact? part key := by
  cases key <;> simp [fact?, FactKey.isInstanceOf, instanceFact?_forgetNonFinalInstances]

private theorem fact?_forgetNonFinalStatic (key : FactKey) :
    (facts.forgetNonFinalStatic field).fact? part key
      = if part = false ∧ decide (key = .static field) = true then none else facts.fact? part key := by
  cases key <;> simp [fact?, staticFact?_forgetNonFinalStatic]

private theorem fact?_clearNonFinalInstances (key : FactKey) :
    facts.clearNonFinalInstances.fact? part key
      = if part = false ∧ key.isOnObject = true then none else facts.fact? part key := by
  cases key <;> cases part <;> simp [fact?, FactKey.isOnObject]

private theorem fact?_clearNonFinalStatics (key : FactKey) :
    facts.clearNonFinalStatics.fact? part key
      = if part = false ∧ (!key.isOnObject) = true then none else facts.fact? part key := by
  cases key <;> cases part <;> simp [fact?, FactKey.isOnObject]

private theorem fact?_clearNonFinal (key : FactKey) :
    facts.clearNonFinal.fact? part key = if part = false ∧ true = true then none else facts.fact? part key := by
  cases key <;> cases part <;> simp [fact?]

end KnownFields

/-- A fact stands in the map exactly if it stands in the part of the tables that its finality names. -/
structure Represents (facts : KnownFields) (map : FactMap) : Prop where
  find? : ∀ key fact, map.find? key = some fact ↔ facts.fact? fact.isFinal key = some fact.known
  final : facts.finalInstance.NoneEmpty
  nonFinal : facts.nonFinalInstance.NoneEmpty

namespace Represents

variable {facts : KnownFields} {map : FactMap}

theorem empty : Represents {} .empty where
  find? := by
    intro key fact
    cases key <;> simp [KnownFields.fact?]
  final := .empty
  nonFinal := .empty

/-! ### What the three kinds of change do to the map -/

section Changes

variable {later : KnownFields}

theorem find?_insert (h : Represents facts map) {written : FactKey} {new : Fact}
    (hlater : ∀ part key, later.fact? part key
      = if key = written then (if part = new.isFinal then some new.known else none) else facts.fact? part key)
    (key : FactKey) (fact : Fact) :
    (map.insert written new).find? key = some fact ↔ later.fact? fact.isFinal key = some fact.known := by
  rw [Table.find?_insert, hlater]
  by_cases hkey : key = written
  · obtain ⟨isFinal, known⟩ := new
    obtain ⟨part, other⟩ := fact
    by_cases hpart : part = isFinal
    · simp [hkey, hpart]
    · simp [hkey, hpart, Ne.symm hpart]
  · rw [if_neg hkey, if_neg hkey]
    exact h.find? key fact

theorem find?_erase (h : Represents facts map) {forgotten : FactKey}
    (hlater : ∀ part key, later.fact? part key = if key = forgotten then none else facts.fact? part key)
    (key : FactKey) (fact : Fact) :
    (map.erase forgotten).find? key = some fact ↔ later.fact? fact.isFinal key = some fact.known := by
  rw [Table.find?_erase, hlater]
  by_cases hkey : key = forgotten
  · simp [hkey]
  · rw [if_neg hkey, if_neg hkey]
    exact h.find? key fact

theorem find?_discard (h : Represents facts map) {scope : FactKey → Bool}
    (hlater : ∀ part key, later.fact? part key = if part = false ∧ scope key = true then none else facts.fact? part key)
    (key : FactKey) (fact : Fact) :
    (map.discard scope).find? key = some fact ↔ later.fact? fact.isFinal key = some fact.known := by
  rw [FactMap.discard, Table.find?_filter_eq_some, h.find?, hlater]
  cases hpart : fact.isFinal <;> cases hscope : scope key <;> simp

end Changes

/-- Whatever change is made to both, the tables go on to agree with the map. -/
theorem change (h : Represents facts map) (made : FactChange) : Represents (made.onTables facts) (made.onMap map) := by
  cases made with
  | recordInstance isFinal field object known =>
    refine ⟨h.find?_insert fun part => facts.fact?_recordInstance part isFinal field object known, ?_, ?_⟩
    · cases isFinal
      · exact h.final.forget field object
      · exact h.final.record field object known
    · cases isFinal
      · exact h.nonFinal.record field object known
      · exact h.nonFinal.forget field object
  | recordStatic isFinal field known =>
    refine ⟨h.find?_insert fun part => facts.fact?_recordStatic part isFinal field known, ?_, ?_⟩
    · cases isFinal <;> exact h.final
    · cases isFinal <;> exact h.nonFinal
  | forgetInstance field object =>
    exact ⟨h.find?_erase fun part => facts.fact?_forgetInstance part field object, h.final.forget field object,
      h.nonFinal.forget field object⟩
  | forgetStatic field =>
    exact ⟨h.find?_erase fun part => facts.fact?_forgetStatic part field, h.final, h.nonFinal⟩
  | forgetNonFinalInstances field =>
    exact ⟨h.find?_discard fun part => facts.fact?_forgetNonFinalInstances part field, h.final, h.nonFinal.erase field⟩
  | forgetNonFinalStatic field =>
    exact ⟨h.find?_discard fun part => facts.fact?_forgetNonFinalStatic part field, h.final, h.nonFinal⟩
  | clearNonFinalInstances =>
    exact ⟨h.find?_discard fun part => facts.fact?_clearNonFinalInstances part, h.final, .empty⟩
  | clearNonFinalStatics =>
    exact ⟨h.find?_discard fun part => facts.fact?_clearNonFinalStatics part, h.final, h.nonFinal⟩
  | clearNonFinal =>
    exact ⟨h.find?_discard fun part => facts.fact?_clearNonFinal part, h.final, .empty⟩

/-- One step of work keeps all tables in agreement with their maps. -/
theorem step {tables : Nat → KnownFields} {maps : Nat → FactMap} (h : ∀ place, Represents (tables place) (maps place))
    (step : FactStep) (place : Nat) :
    Represents (step.apply (fun facts made => made.onTables facts) tables place)
      (step.apply (fun map made => made.onMap map) maps place) := by
  cases step with
  | change changed made =>
    by_cases hplace : place = changed
    · subst hplace
      simpa [FactStep.apply] using (h place).change made
    · simpa [FactStep.apply, hplace] using h place
  | copy source target =>
    by_cases hplace : place = target
    · subst hplace
      simpa [FactStep.apply] using h source
    · simpa [FactStep.apply, hplace] using h place

theorem foldl {tables : Nat → KnownFields} {maps : Nat → FactMap} (h : ∀ place, Represents (tables place) (maps place))
    (steps : List FactStep) (place : Nat) :
    Represents (steps.foldl (FactStep.apply fun facts made => made.onTables facts) tables place)
      (steps.foldl (FactStep.apply fun map made => made.onMap map) maps place) := by
  induction steps generalizing tables maps with
  | nil => exact h place
  | cons first steps ih => exact ih (Represents.step h first)

/-! ### What can be observed -/

theorem fact?_eq (h : Represents facts map) (isFinal : Bool) (key : FactKey) :
    facts.fact? isFinal key = ((map.find? key).filter (·.isFinal = isFinal)).map (·.known) := by
  ext known
  rw [← h.find? key ⟨isFinal, known⟩]
  cases hfound : map.find? key with
  | none => simp
  | some fact =>
    obtain ⟨part, other⟩ := fact
    by_cases hpart : part = isFinal <;> simp [Option.filter, hpart]

private theorem or_eq (h : Represents facts map) (key : FactKey) :
    (facts.fact? false key).or (facts.fact? true key) = (map.find? key).map (·.known) := by
  rw [h.fact?_eq, h.fact?_eq]
  cases map.find? key with
  | none => rfl
  | some fact => cases hfinal : fact.isFinal <;> simp [Option.filter, hfinal]

theorem size_eq (h : Represents facts map) : facts.size = map.size := by
  have hperm : facts.entries.Perm map.entries := by
    refine (List.perm_ext_iff_of_nodup facts.entries_nodup map.entries_nodup).2 ?_
    rintro ⟨key, fact⟩
    rw [KnownFields.mem_entries, Table.mem_entries, h.find?]
  rw [← KnownFields.length_entries, hperm.length_eq, Table.size]

theorem isEmpty_iff (h : Represents facts map) : facts.isEmpty = true ↔ facts.size = 0 := by
  have hstatic : ∀ table : Table FieldId Known, table.isEmpty = true ↔ table.size = 0 := by
    intro table
    rw [Table.isEmpty, List.isEmpty_iff, Table.size, List.length_eq_zero_iff]
  rw [KnownFields.isEmpty, KnownFields.size]
  simp only [Bool.and_eq_true, h.final.isEmpty_iff, h.nonFinal.isEmpty_iff, hstatic]
  omega

end Represents

/-- Everything that can be asked of the tables is answered as the map answers it, no key stands in both parts, and no
field is left without a receiver. -/
structure SameAnswers (facts : KnownFields) (map : FactMap) : Prop where
  instance? : ∀ field object, facts.instance? field object = (map.find? (.onObject field object)).map (·.known)
  static? : ∀ field, facts.static? field = (map.find? (.static field)).map (·.known)
  size : facts.size = map.size
  isEmpty : facts.isEmpty = true ↔ facts.size = 0
  instance_apart : ∀ field object,
    facts.finalInstance.lookup? field object = none ∨ facts.nonFinalInstance.lookup? field object = none
  static_apart : ∀ field, facts.finalStatic.find? field = none ∨ facts.nonFinalStatic.find? field = none
  final_receivers : facts.finalInstance.NoneEmpty
  nonFinal_receivers : facts.nonFinalInstance.NoneEmpty

private theorem Represents.sameAnswers {facts : KnownFields} {map : FactMap} (h : Represents facts map) :
    SameAnswers facts map := by
  have hapart : ∀ key, facts.fact? true key = none ∨ facts.fact? false key = none := by
    intro key
    rw [h.fact?_eq, h.fact?_eq]
    cases map.find? key with
    | none => exact .inl rfl
    | some fact => cases hfinal : fact.isFinal <;> simp [Option.filter, hfinal]
  exact
    { instance? := fun field object => h.or_eq (.onObject field object)
      static? := fun field => h.or_eq (.static field)
      size := h.size_eq
      isEmpty := h.isEmpty_iff
      instance_apart := fun field object => hapart (.onObject field object)
      static_apart := fun field => hapart (.static field)
      final_receivers := h.final
      nonFinal_receivers := h.nonFinal }

/-- **One map.** However maps are changed and copied, starting from empty ones, the tables in a place answer every question
as the plain map does that went through the same steps. -/
theorem knownFields_answer_as_one_map (steps : List FactStep) (place : Nat) :
    SameAnswers (FactStep.work (fun facts made => made.onTables facts) {} steps place)
      (FactStep.work (fun map made => made.onMap map) .empty steps place) :=
  (Represents.foldl (fun _ => .empty) steps place).sameAnswers

end Bytecode

import Bytecode.Proofs.Body.Building
/-!
# Alias chains end at their roots

A value may be an alias of another value, which may be one again. Following these links from a value goes on for as long
as there are links, but never for more links than the body has values and one; so it comes to a result whatever the links
are, also if they lead around in a circle.

In a body that was built step by step only an assumption makes a link, from the value it creates to its source. If the
source was there before, links lead to earlier values, and a chain of them has fewer links than the body has values. The
limit is then never reached: the root of a value is the one value without a link at the end of its chain.
-/

namespace Bytecode

namespace Body

/-- The value that a value is recorded as an alias of. -/
def alias? (body : Body) (value : ValueId) : Option ValueId :=
  (body.value? value).bind (·.aliasOf)

/-- A chain of alias links, with their number. -/
inductive AliasPath (body : Body) : Nat → ValueId → ValueId → Prop
  | nil (value : ValueId) : AliasPath body 0 value value
  | cons {links : Nat} {value source last : ValueId} :
      body.alias? value = some source → AliasPath body links source last → AliasPath body (links + 1) value last

/-- A value without a link that the links from `value` lead to. -/
def AliasEnd (body : Body) (value root : ValueId) : Prop :=
  (∃ links, body.AliasPath links value root) ∧ body.alias? root = none

/-- Links lead to values that were created earlier. -/
def AliasesDescend (body : Body) : Prop :=
  ∀ value source, body.alias? value = some source → source.index < value.index

variable {body : Body} {value source root last : ValueId} {links : Nat}

private theorem index_lt_of_alias? (h : body.alias? value = some source) : value.index < body.values.length := by
  obtain ⟨info, hinfo, -⟩ := Option.bind_eq_some_iff.1 h
  exact (List.getElem?_eq_some_iff.1 hinfo).1

/-! ### Following links -/

private theorem followAliases_succ_of_none (h : body.alias? value = none) (steps : Nat) :
    body.followAliases (steps + 1) value = value := by
  rw [alias?] at h
  rw [followAliases, h]

private theorem followAliases_succ_of_some (h : body.alias? value = some source) (steps : Nat) :
    body.followAliases (steps + 1) value = body.followAliases steps source := by
  rw [alias?] at h
  rw [followAliases, h]

/-- Following stops before the limit only where there is no link. -/
theorem exists_aliasPath_followAliases (body : Body) (steps : Nat) (value : ValueId) :
    ∃ links ≤ steps, body.AliasPath links value (body.followAliases steps value) ∧
      (body.alias? (body.followAliases steps value) ≠ none → links = steps) := by
  induction steps generalizing value with
  | zero => exact ⟨0, Nat.le_refl 0, .nil value, fun _ => rfl⟩
  | succ steps ih =>
    cases hlink : body.alias? value with
    | none =>
      rw [followAliases_succ_of_none hlink]
      exact ⟨0, Nat.zero_le _, .nil value, fun hsome => absurd hlink hsome⟩
    | some source =>
      obtain ⟨links, hle, hpath, hlimit⟩ := ih source
      rw [followAliases_succ_of_some hlink]
      exact ⟨links + 1, Nat.succ_le_succ hle, .cons hlink hpath, fun hsome => congrArg Nat.succ (hlimit hsome)⟩

theorem AliasPath.followAliases_eq (h : body.AliasPath links value last) (hend : body.alias? last = none) {limit : Nat}
    (hlimit : links ≤ limit) : body.followAliases limit value = last := by
  induction h generalizing limit with
  | nil value =>
    cases limit with
    | zero => rfl
    | succ limit => exact followAliases_succ_of_none hend limit
  | cons hlink _ ih =>
    cases limit with
    | zero => exact absurd hlimit (Nat.not_succ_le_zero _)
    | succ limit =>
      rw [followAliases_succ_of_some hlink]
      exact ih hend (Nat.le_of_succ_le_succ hlimit)

/-! ### Links to earlier values -/

private theorem AliasPath.index_add_le (hdescend : body.AliasesDescend) (h : body.AliasPath links value last) :
    last.index + links ≤ value.index := by
  induction h with
  | nil => exact Nat.le_refl _
  | cons hlink _ ih =>
    have hlt := hdescend _ _ hlink
    omega

/-- The longest chain goes through all values of the body. -/
theorem AliasPath.links_le (hdescend : body.AliasesDescend) (h : body.AliasPath links value last) :
    links ≤ body.values.length - 1 := by
  cases h with
  | nil => exact Nat.zero_le _
  | cons hlink hpath =>
    have hle := (AliasPath.cons hlink hpath).index_add_le hdescend
    have hlt := index_lt_of_alias? hlink
    omega

namespace AliasesDescend

theorem followAliases_eq (hdescend : body.AliasesDescend) (hroot : body.AliasEnd value root) {limit : Nat}
    (hlimit : body.values.length - 1 ≤ limit) : body.followAliases limit value = root := by
  obtain ⟨⟨links, hpath⟩, hend⟩ := hroot
  exact hpath.followAliases_eq hend (Nat.le_trans (hpath.links_le hdescend) hlimit)

theorem aliasEnd_aliasRoot (hdescend : body.AliasesDescend) (value : ValueId) :
    body.AliasEnd value (body.aliasRoot value) := by
  obtain ⟨links, -, hpath, hlimit⟩ := exists_aliasPath_followAliases body (body.values.length + 1) value
  refine ⟨⟨links, hpath⟩, ?_⟩
  by_contra hsome
  -- the limit was not reached, since no chain is that long
  have hlinks := hpath.links_le hdescend
  rw [hlimit hsome] at hlinks
  omega

theorem aliasEnd_iff (hdescend : body.AliasesDescend) : body.AliasEnd value root ↔ root = body.aliasRoot value := by
  constructor
  · exact fun hroot => (hdescend.followAliases_eq hroot (by omega)).symm
  · rintro rfl
    exact hdescend.aliasEnd_aliasRoot value

private theorem aliasRoot_aliasRoot (hdescend : body.AliasesDescend) (value : ValueId) :
    body.aliasRoot (body.aliasRoot value) = body.aliasRoot value := by
  have hend := (hdescend.aliasEnd_aliasRoot value).2
  exact (hdescend.aliasEnd_iff.1 ⟨⟨0, .nil _⟩, hend⟩).symm

private theorem aliasRoot_eq_of_alias? (hdescend : body.AliasesDescend) (hlink : body.alias? value = some source) :
    body.aliasRoot value = body.aliasRoot source := by
  obtain ⟨⟨links, hpath⟩, hend⟩ := hdescend.aliasEnd_aliasRoot source
  exact (hdescend.aliasEnd_iff.1 ⟨⟨links + 1, .cons hlink hpath⟩, hend⟩).symm

end AliasesDescend

end Body

/-! ### The links that building makes -/

namespace BodyBuilder

variable {builder next : BodyBuilder}

/-- The source of an assumption; no other step makes a link. -/
def Step.source? : Step → Option ValueId
  | .assume source => some source
  | _ => none

/-- Each assumption among the steps is given a source that is a value of the body built so far. -/
def SourcesCreated (builder : BodyBuilder) : List Step → Prop
  | [] => True
  | step :: rest =>
    (∀ source ∈ step.source?, source.index < builder.body.values.length) ∧
      match builder.apply step with
      | .ok (next, _) => next.SourcesCreated rest
      | .error _ => True

instance decidableSourcesCreated :
    (builder : BodyBuilder) → (steps : List Step) → Decidable (builder.SourcesCreated steps)
  | _, [] => .isTrue trivial
  | builder, step :: rest =>
    have : Decidable (match builder.apply step with
        | .ok (next, _) => next.SourcesCreated rest
        | .error _ => True) :=
      match builder.apply step with
      | .ok (next, _) => decidableSourcesCreated next rest
      | .error _ => .isTrue trivial
    inferInstanceAs (Decidable (_ ∧ _))

theorem SourcesCreated.tail {step : Step} {rest : List Step} {created : Option Created}
    (h : builder.SourcesCreated (step :: rest)) (hstep : builder.apply step = .ok (next, created)) :
    next.SourcesCreated rest := by
  have hrest := h.2
  rwa [hstep] at hrest

theorem values_modifyCurrent {f : Block → Block} (h : builder.modifyCurrent f = .ok next) :
    next.body.values = builder.body.values := by
  unfold modifyCurrent at h
  split at h
  · obtain rfl := Except.ok.inj h
    rfl
  · cases h

private theorem values_define {operation : ValueId → Operation} {value : ValueId}
    (h : builder.define operation = .ok (next, value)) :
    next.body.values = builder.body.values ++ [({} : ValueInfo)] ∧ value = ⟨builder.body.values.length⟩ := by
  obtain ⟨emitted, hemit, heq⟩ := exists_of_bind_eq_ok h
  cases heq
  exact ⟨values_modifyCurrent hemit, rfl⟩

private theorem values_phi {operands : List ValueId} {value : ValueId} (h : builder.phi operands = .ok (next, value)) :
    next.body.values = builder.body.values ++ [({} : ValueInfo)] := by
  obtain ⟨placed, hplaced, heq⟩ := exists_of_bind_eq_ok h
  cases heq
  exact values_modifyCurrent hplaced

private theorem values_assume {source value : ValueId} (h : builder.assume source = .ok (next, value)) :
    next.body.values = builder.body.values ++ [{ aliasOf := some source }] ∧
      value = ⟨builder.body.values.length⟩ := by
  obtain ⟨⟨defined, dest⟩, hdefine, heq⟩ := exists_of_bind_eq_ok h
  cases heq
  obtain ⟨hvalues, rfl⟩ := values_define hdefine
  refine ⟨?_, rfl⟩
  change defined.body.values.modify builder.body.values.length _ = _
  rw [hvalues, List.modify_eq_take_drop]
  simp

private theorem values_terminate {operation : Operation} {successors : List Nat}
    (h : builder.terminate operation successors = .ok next) : next.body.values = builder.body.values := by
  obtain ⟨emitted, hemit, hlinked⟩ := exists_of_bind_eq_ok h
  rw [values_modifyCurrent hlinked, values_modifyCurrent hemit]

/-- A step changes no link; if it creates a value, that has the link the step makes. -/
theorem aliases_apply {step : Step} {created : Option Created} (h : builder.apply step = .ok (next, created)) :
    next.body.values.map (·.aliasOf) = builder.body.values.map (·.aliasOf) ∧ step.source? = none ∨
      next.body.values.map (·.aliasOf) = builder.body.values.map (·.aliasOf) ++ [step.source?] := by
  cases step with
  | newBlock | switchTo | currentBlock =>
    cases h
    exact .inl ⟨rfl, rfl⟩
  | newValue =>
    cases h
    exact .inr (List.map_append ..)
  | setLocal value name =>
    cases h
    refine .inl ⟨?_, rfl⟩
    apply List.ext_getElem?
    intro index
    simp only [setLocal, modifyValue, List.getElem?_map, List.getElem?_modify]
    cases builder.body.values[index]? with
    | none => rfl
    | some info => by_cases heq : value.index = index <;> simp [heq]
  | phi operands =>
    obtain ⟨after, hafter, heq⟩ := exists_of_map_eq_ok h
    cases heq
    exact .inr (by rw [values_phi hafter, List.map_append]; rfl)
  | assume source =>
    obtain ⟨after, hafter, heq⟩ := exists_of_map_eq_ok h
    cases heq
    exact .inr (by rw [(values_assume hafter).1, List.map_append]; rfl)
  | define operation =>
    obtain ⟨after, hafter, heq⟩ := exists_of_map_eq_ok h
    cases heq
    exact .inr (by rw [(values_define hafter).1, List.map_append]; rfl)
  | attachDebugValues | addHandler | emit =>
    obtain ⟨after, hafter, heq⟩ := exists_of_map_eq_ok h
    cases heq
    exact .inl ⟨by rw [values_modifyCurrent hafter], rfl⟩
  | terminate operation successors =>
    obtain ⟨after, hafter, heq⟩ := exists_of_map_eq_ok h
    cases heq
    exact .inl ⟨by rw [values_terminate hafter], rfl⟩

theorem alias?_apply {step : Step} {created : Option Created} (h : builder.apply step = .ok (next, created))
    (value : ValueId) :
    next.body.alias? value
      = if value.index = builder.body.values.length then step.source? else builder.body.alias? value := by
  have halias : ∀ body : Body, body.alias? value = (body.values.map (·.aliasOf))[value.index]?.join := by
    intro body
    rw [List.getElem?_map, Body.alias?, Body.value?]
    cases body.values[value.index]? <;> rfl
  have hlength : (builder.body.values.map (·.aliasOf)).length = builder.body.values.length := List.length_map ..
  rw [halias, halias]
  rcases aliases_apply h with ⟨hsame, hnone⟩ | hnew
  · rw [hsame, hnone]
    split
    · next heq => rw [List.getElem?_eq_none (by omega), Option.join_none]
    · rfl
  · rw [hnew, List.getElem?_append]
    split
    · rw [if_neg (by omega)]
    · split
      · next heq => simp [heq]
      · rw [List.getElem?_eq_none (by simp; omega), List.getElem?_eq_none (by omega)]

private theorem alias?_apply_of_some {step : Step} {created : Option Created}
    (h : builder.apply step = .ok (next, created))
    {value source : ValueId} (hlink : builder.body.alias? value = some source) :
    next.body.alias? value = some source := by
  have hlt := Body.index_lt_of_alias? hlink
  rw [alias?_apply h, if_neg (Nat.ne_of_lt hlt)]
  exact hlink

private theorem aliasesDescend_apply {step : Step} {created : Option Created}
    (h : builder.apply step = .ok (next, created))
    (hsource : ∀ source ∈ step.source?, source.index < builder.body.values.length)
    (hdescend : builder.body.AliasesDescend) : next.body.AliasesDescend := by
  intro value source hlink
  rw [alias?_apply h] at hlink
  split at hlink
  · next heq =>
    rw [heq]
    exact hsource source hlink
  · exact hdescend value source hlink

/-! ### Whole runs -/

private theorem exists_of_run_append {before rest : List Step} {created : List Created}
    (h : builder.run (before ++ rest) = .ok (next, created)) :
    ∃ middle reported others, builder.run before = .ok (middle, reported) ∧ middle.run rest = .ok (next, others) := by
  induction before generalizing builder created with
  | nil => exact ⟨builder, [], created, rfl, h⟩
  | cons step before ih =>
    obtain ⟨first, report, others, hstep, hrest⟩ := exists_of_run_cons h
    obtain ⟨middle, reported, others, hbefore, hafter⟩ := ih hrest
    refine ⟨middle, report.toList ++ reported, others, ?_, hafter⟩
    rw [run, hstep]
    change (first.run before >>= _) = _
    rw [hbefore]
    rfl

private theorem alias?_run_of_some {steps : List Step} {created : List Created}
    (h : builder.run steps = .ok (next, created))
    {value source : ValueId} (hlink : builder.body.alias? value = some source) :
    next.body.alias? value = some source := by
  induction steps generalizing builder created with
  | nil =>
    cases h
    exact hlink
  | cons step steps ih =>
    obtain ⟨first, report, others, hstep, hrest⟩ := exists_of_run_cons h
    exact ih hrest (alias?_apply_of_some hstep hlink)

private theorem aliasesDescend_run {steps : List Step} {created : List Created}
    (h : builder.run steps = .ok (next, created))
    (hsources : builder.SourcesCreated steps) (hdescend : builder.body.AliasesDescend) :
    next.body.AliasesDescend := by
  induction steps generalizing builder created with
  | nil =>
    cases h
    exact hdescend
  | cons step steps ih =>
    obtain ⟨first, report, others, hstep, hrest⟩ := exists_of_run_cons h
    exact ih hrest (SourcesCreated.tail hsources hstep) (aliasesDescend_apply hstep hsources.1 hdescend)

/-- What an assumption creates is linked to its source from then on. -/
theorem exists_alias?_of_assume {before after : List Step} {source : ValueId} {created : List Created}
    (h : builder.run (before ++ .assume source :: after) = .ok (next, created)) :
    ∃ earlier reported extended dest, builder.run before = .ok (earlier, reported) ∧
      earlier.assume source = .ok (extended, dest) ∧ next.body.alias? dest = some source := by
  obtain ⟨earlier, reported, others, hbefore, hafter⟩ := exists_of_run_append h
  obtain ⟨first, report, rest, hstep, hrest⟩ := exists_of_run_cons hafter
  obtain ⟨⟨_, dest⟩, hassume, heq⟩ := exists_of_map_eq_ok hstep
  cases heq
  refine ⟨earlier, reported, first, dest, hbefore, hassume, alias?_run_of_some hrest ?_⟩
  rw [alias?_apply hstep, if_pos (congrArg ValueId.index (values_assume hassume).2)]
  rfl

/-- **Alias chains.** In a body built from steps in which each assumption is given a value that exists, the root of any
value, of one outside the body too, is the only value without a link that its chain leads to. So roots are their own
roots, and an assumption and its source have one root. No chain has as many links as there are values, and a limit that
allows the longest chain changes nothing. In any body at all, whatever its links, the root is reached in at most one link
more than there are values, and exactly there if the chain goes on. -/
theorem alias_chains_end_at_root (method : MethodId) (steps : List Step) (builder : BodyBuilder)
    (created : List Created) (h : (start method).run steps = .ok (builder, created))
    (hsources : (start method).SourcesCreated steps) :
    (∀ value root, builder.body.AliasEnd value root ↔ root = builder.body.aliasRoot value) ∧
    (∀ value, builder.body.aliasRoot (builder.body.aliasRoot value) = builder.body.aliasRoot value) ∧
    (∀ before source after, steps = before ++ .assume source :: after →
      ∃ earlier reported extended dest, (start method).run before = .ok (earlier, reported) ∧
        earlier.assume source = .ok (extended, dest) ∧ builder.body.aliasRoot dest = builder.body.aliasRoot source) ∧
    (∀ links value last, builder.body.AliasPath links value last → links ≤ builder.body.values.length - 1) ∧
    (∀ limit ≥ builder.body.values.length - 1, ∀ value,
      builder.body.followAliases limit value = builder.body.aliasRoot value) ∧
    ∀ (body : Body) (value : ValueId), ∃ links ≤ body.values.length + 1,
      body.AliasPath links value (body.aliasRoot value) ∧
        (body.alias? (body.aliasRoot value) ≠ none → links = body.values.length + 1) := by
  have hstart : (start method).body.AliasesDescend := by simp [Body.AliasesDescend, Body.alias?, Body.value?, start]
  have hdescend : builder.body.AliasesDescend := aliasesDescend_run h hsources hstart
  refine ⟨fun value root => hdescend.aliasEnd_iff, hdescend.aliasRoot_aliasRoot, ?_, ?_, ?_, ?_⟩
  · rintro before source after rfl
    obtain ⟨earlier, reported, extended, dest, hbefore, hassume, hlink⟩ := exists_alias?_of_assume h
    exact ⟨earlier, reported, extended, dest, hbefore, hassume, hdescend.aliasRoot_eq_of_alias? hlink⟩
  · exact fun links value last hpath => hpath.links_le hdescend
  · exact fun limit hlimit value => hdescend.followAliases_eq (hdescend.aliasEnd_aliasRoot value) hlimit
  · exact fun body value => Body.exists_aliasPath_followAliases body (body.values.length + 1) value

/-- An argument under two assumptions, and an assumption that is appended as it is and makes no link. -/
def assumedTwice : List Step :=
  [.define (.argument · 0), .assume ⟨0⟩, .assume ⟨1⟩, .newValue, .emit (.assume ⟨3⟩ ⟨2⟩), .terminate (.return none) []]

def assumedTwiceBody : Body where
  method := ⟨0⟩
  blocks :=
    [{ instructions := [{ operation := .argument ⟨0⟩ 0 }, { operation := .assume ⟨1⟩ ⟨0⟩ },
         { operation := .assume ⟨2⟩ ⟨1⟩ }, { operation := .assume ⟨3⟩ ⟨2⟩ }, { operation := .return none }] }]
  values := [{}, { aliasOf := some ⟨0⟩ }, { aliasOf := some ⟨1⟩ }, {}]

theorem alias_chains_end_at_root_of_assumedTwice :
    (start ⟨0⟩).run assumedTwice
      = .ok (⟨assumedTwiceBody, 0⟩, [.value ⟨0⟩, .value ⟨1⟩, .value ⟨2⟩, .value ⟨3⟩]) ∧
    (start ⟨0⟩).SourcesCreated assumedTwice ∧
    (∀ root, assumedTwiceBody.AliasEnd ⟨2⟩ root ↔ root = ⟨0⟩) ∧
    ∀ root, assumedTwiceBody.AliasEnd ⟨3⟩ root ↔ root = ⟨3⟩ := by
  have hrun : (start ⟨0⟩).run assumedTwice
      = .ok (⟨assumedTwiceBody, 0⟩, [.value ⟨0⟩, .value ⟨1⟩, .value ⟨2⟩, .value ⟨3⟩]) := by rfl
  have hsources : (start ⟨0⟩).SourcesCreated assumedTwice := by decide
  obtain ⟨hends, -⟩ := alias_chains_end_at_root ⟨0⟩ assumedTwice _ _ hrun hsources
  exact ⟨hrun, hsources, hends ⟨2⟩, hends ⟨3⟩⟩

end BodyBuilder

end Bytecode

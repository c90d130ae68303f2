import Bytecode.CallGraph
import Mathlib.Data.List.Nodup
import Mathlib.Data.List.Perm.Subperm
/-!
# Balanced call graphs

What the nodes of every call graph have in common, read by methods: no method has two nodes, an edge stands at both of
its ends and once at each, and none leads to its own node. Whatever is done to a graph while it is taken apart comes down
to one operation on its nodes, `remaining`: some methods go, with every edge at them, and nothing else changes. It
composes, so a whole run of removals is one removal.
-/

namespace Bytecode

/-- A node without its edges to and from the methods that are gone. -/
def CallNode.detach (gone : List MethodId) (node : CallNode) : CallNode :=
  { node with
    callees := node.callees.filter (· ∉ gone)
    callers := node.callers.filter (· ∉ gone) }

namespace CallGraph

/-- Every edge is recorded at both ends, once at each, and none leads back to its own node. -/
structure Balanced (nodes : List CallNode) : Prop where
  distinct : (nodes.map (·.method)).Nodup
  callees_nodup : ∀ node ∈ nodes, node.callees.Nodup
  callers_nodup : ∀ node ∈ nodes, node.callers.Nodup
  callee_listed : ∀ node ∈ nodes, ∀ callee ∈ node.callees,
    ∃ target ∈ nodes, target.method = callee ∧ node.method ∈ target.callers
  caller_listed : ∀ node ∈ nodes, ∀ caller ∈ node.callers,
    ∃ source ∈ nodes, source.method = caller ∧ node.method ∈ source.callees
  no_self_call : ∀ node ∈ nodes, node.method ∉ node.callees

/-- The nodes that are left when some methods go with every edge at them. -/
def remaining (nodes : List CallNode) (gone : List MethodId) : List CallNode :=
  (nodes.filter (·.method ∉ gone)).map (CallNode.detach gone)

theorem eq_of_method_eq {nodes : List CallNode} (hdistinct : (nodes.map (·.method)).Nodup) {left right : CallNode}
    (hleft : left ∈ nodes) (hright : right ∈ nodes) (heq : left.method = right.method) : left = right :=
  List.inj_on_of_nodup_map hdistinct hleft hright heq

/-! ### Balanced nodes -/

namespace Balanced

variable {nodes : List CallNode}

/-- Seen from the callee, an edge is the same edge. -/
theorem mem_callers_iff (h : Balanced nodes) {caller callee : CallNode} (hcaller : caller ∈ nodes)
    (hcallee : callee ∈ nodes) : caller.method ∈ callee.callers ↔ callee.method ∈ caller.callees := by
  constructor
  · intro hmem
    obtain ⟨source, hsource, hmethod, hlisted⟩ := h.caller_listed callee hcallee _ hmem
    rwa [eq_of_method_eq h.distinct hsource hcaller hmethod] at hlisted
  · intro hmem
    obtain ⟨target, htarget, hmethod, hlisted⟩ := h.callee_listed caller hcaller _ hmem
    rwa [eq_of_method_eq h.distinct htarget hcallee hmethod] at hlisted

theorem no_self_caller (h : Balanced nodes) {node : CallNode} (hnode : node ∈ nodes) :
    node.method ∉ node.callers := by
  rw [h.mem_callers_iff hnode hnode]
  exact h.no_self_call node hnode

/-- A method has fewer callees than there are nodes, since it does not call itself. -/
theorem degree_lt (h : Balanced nodes) {node : CallNode} (hnode : node ∈ nodes) : node.degree < nodes.length := by
  have hsub : node.method :: node.callees ⊆ nodes.map (·.method) := by
    intro method hmethod
    rcases List.mem_cons.1 hmethod with rfl | hcallee
    · exact List.mem_map_of_mem hnode
    · obtain ⟨target, htarget, rfl, -⟩ := h.callee_listed node hnode method hcallee
      exact List.mem_map_of_mem htarget
  have hnodup : (node.method :: node.callees).Nodup :=
    List.nodup_cons.2 ⟨h.no_self_call node hnode, h.callees_nodup node hnode⟩
  have hlength := (List.subperm_of_subset hnodup hsub).length_le
  rw [List.length_cons, List.length_map] at hlength
  exact hlength

end Balanced

/-! ### Removing methods -/

theorem mem_remaining {nodes : List CallNode} {gone : List MethodId} {node : CallNode} :
    node ∈ remaining nodes gone ↔ ∃ before ∈ nodes, before.method ∉ gone ∧ before.detach gone = node := by
  simp [remaining, and_assoc]

@[simp] theorem detach_method (gone : List MethodId) (node : CallNode) : (node.detach gone).method = node.method :=
  rfl

@[simp] theorem detach_nil (node : CallNode) : node.detach [] = node := by
  simp [CallNode.detach]

private theorem detach_detach (gone more : List MethodId) (node : CallNode) :
    (node.detach gone).detach more = node.detach (gone ++ more) := by
  simp only [CallNode.detach, List.filter_filter, List.mem_append, not_or, CallNode.mk.injEq, true_and]
  constructor <;>
  · apply List.filter_congr
    intro method _
    by_cases hgone : method ∈ gone <;> by_cases hmore : method ∈ more <;> simp [hgone, hmore]

@[simp] theorem remaining_nil (nodes : List CallNode) : remaining nodes [] = nodes := by
  have hdetach : CallNode.detach [] = id := funext detach_nil
  simp [remaining, hdetach]

theorem remaining_remaining (nodes : List CallNode) (gone more : List MethodId) :
    remaining (remaining nodes gone) more = remaining nodes (gone ++ more) := by
  simp only [remaining, List.filter_map, List.map_map, List.filter_filter]
  have hfilter : nodes.filter (fun node => ((fun node : CallNode => decide (node.method ∉ more)) ∘
      CallNode.detach gone) node && decide (node.method ∉ gone))
      = nodes.filter fun node => decide (node.method ∉ gone ++ more) := by
    apply List.filter_congr
    intro node _
    by_cases hgone : node.method ∈ gone <;> by_cases hmore : node.method ∈ more <;> simp [hgone, hmore]
  rw [hfilter]
  apply List.map_congr_left
  intro node _
  exact detach_detach gone more node

theorem methods_remaining (nodes : List CallNode) (gone : List MethodId) :
    (remaining nodes gone).map (·.method) = (nodes.map (·.method)).filter (· ∉ gone) := by
  simp [remaining, List.filter_map, Function.comp_def]

/-- The methods that go and those that stay are all methods. -/
theorem append_filter_not_mem_perm {methods gone : List MethodId} (hmethods : methods.Nodup) (hgone : gone.Nodup)
    (hsubset : gone ⊆ methods) : (gone ++ methods.filter (· ∉ gone)).Perm methods := by
  have hpicked : gone.Perm (methods.filter (· ∈ gone)) := by
    refine (List.perm_ext_iff_of_nodup hgone (hmethods.filter _)).2 fun method => ?_
    rw [List.mem_filter, decide_eq_true_iff]
    exact ⟨fun hmem => ⟨hsubset hmem, hmem⟩, And.right⟩
  have hrest : methods.filter (· ∉ gone) = methods.filter fun method => !decide (method ∈ gone) := by
    apply List.filter_congr
    intro method _
    exact decide_not
  rw [hrest]
  exact (hpicked.append_right _).trans (List.filter_append_perm _ _)

end CallGraph

end Bytecode

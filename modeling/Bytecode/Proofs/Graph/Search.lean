import Bytecode.Graph.Search
import Mathlib.Data.List.Nodup
import Mathlib.Logic.Relation
/-!
# What a search finds

A search lists every node once, and it lists exactly the nodes that links lead to from where it started. On the way the
nodes that were seen are closed up to the work that waits: a link of a node that has been taken up leads to a node that
was seen, waits or will be taken up. All of this holds in either order of taking up nodes.

If every node has at most one link, a search is a climb, and what it lists later lies above what it lists earlier. It ends
at the first repetition, but a test that succeeds at all on the way up succeeds before that.

Depth first, and if no links lead back to a node, a test that is tried on what is found gives the result of the plain
recursion, which keeps no record of what was seen: a node that is passed over because it was seen has failed before with
everything behind it.
-/

namespace Bytecode.Graph

variable {α : Type} {order : SearchOrder} {known : List α} {links : α → List α}

/-- One link of a node that has links. -/
def Link (known : List α) (links : α → List α) (source target : α) : Prop :=
  source ∈ known ∧ target ∈ links source

private theorem mem_enqueue {fresh waiting : List α} {node : α} :
    node ∈ order.enqueue fresh waiting ↔ node ∈ fresh ∨ node ∈ waiting := by
  cases order with
  | breadthFirst => rw [SearchOrder.enqueue, List.mem_append, or_comm]
  | depthFirst => rw [SearchOrder.enqueue, List.mem_append]

/-- A node that has just been taken up counts as found and not as seen before. -/
private theorem seen_or_found {seen found : List α} {first node : α} (h : node ∈ first :: seen ∨ node ∈ found) :
    node ∈ seen ∨ node ∈ first :: found := by
  rw [List.mem_cons] at h ⊢
  tauto

variable [DecidableEq α]

/-! ### From a state of the search on -/

private theorem searchFrom_fresh (waiting seen : List α) :
    ∀ node ∈ searchFrom order known links waiting seen, node ∉ seen := by
  fun_induction searchFrom order known links waiting seen with
  | case1 => exact fun node hnode => absurd hnode List.not_mem_nil
  | case2 first waiting seen hseen ih => exact ih
  | case3 first waiting seen hfresh hknown ih | case4 first waiting seen hfresh hknown ih =>
    intro node hnode
    rcases List.mem_cons.1 hnode with rfl | hlater
    · exact hfresh
    · exact fun hseen => ih node hlater (List.mem_cons_of_mem _ hseen)

private theorem searchFrom_nodup (waiting seen : List α) : (searchFrom order known links waiting seen).Nodup := by
  fun_induction searchFrom order known links waiting seen with
  | case1 => exact List.nodup_nil
  | case2 first waiting seen hseen ih => exact ih
  | case3 first waiting seen hfresh hknown ih | case4 first waiting seen hfresh hknown ih =>
    exact List.nodup_cons.2 ⟨fun hmem => searchFrom_fresh _ _ first hmem List.mem_cons_self, ih⟩

private theorem mem_searchFrom_of_waiting (waiting seen : List α) :
    ∀ node ∈ waiting, node ∈ seen ∨ node ∈ searchFrom order known links waiting seen := by
  fun_induction searchFrom order known links waiting seen with
  | case1 => exact fun node hnode => absurd hnode List.not_mem_nil
  | case2 first waiting seen hseen ih =>
    intro node hnode
    rcases List.mem_cons.1 hnode with rfl | hlater
    · exact .inl hseen
    · exact ih node hlater
  | case3 first waiting seen hfresh hknown ih =>
    intro node hnode
    rcases List.mem_cons.1 hnode with rfl | hlater
    · exact .inr List.mem_cons_self
    · exact seen_or_found (ih node (mem_enqueue.2 (.inr hlater)))
  | case4 first waiting seen hfresh hknown ih =>
    intro node hnode
    rcases List.mem_cons.1 hnode with rfl | hlater
    · exact .inr List.mem_cons_self
    · exact seen_or_found (ih node hlater)

/-- What is found is closed under links, up to what was seen before. -/
theorem mem_searchFrom_of_link (waiting seen : List α) {target : α} :
    ∀ source ∈ searchFrom order known links waiting seen, Link known links source target →
      target ∈ seen ∨ target ∈ searchFrom order known links waiting seen := by
  fun_induction searchFrom order known links waiting seen with
  | case1 => exact fun source hsource => absurd hsource List.not_mem_nil
  | case2 first waiting seen hseen ih => exact ih
  | case3 first waiting seen hfresh hknown ih =>
    intro source hsource hlink
    apply seen_or_found
    rcases List.mem_cons.1 hsource with rfl | hlater
    · exact mem_searchFrom_of_waiting _ _ target (mem_enqueue.2 (.inl hlink.2))
    · exact ih source hlater hlink
  | case4 first waiting seen hfresh hknown ih =>
    intro source hsource hlink
    rcases List.mem_cons.1 hsource with rfl | hlater
    · exact absurd hlink.1 hknown
    · exact seen_or_found (ih source hlater hlink)

theorem exists_path_of_mem_searchFrom (waiting seen : List α) :
    ∀ node ∈ searchFrom order known links waiting seen,
      ∃ first ∈ waiting, Relation.ReflTransGen (Link known links) first node := by
  fun_induction searchFrom order known links waiting seen with
  | case1 => exact fun node hnode => absurd hnode List.not_mem_nil
  | case2 first waiting seen hseen ih =>
    intro node hnode
    obtain ⟨start, hstart, hpath⟩ := ih node hnode
    exact ⟨start, List.mem_cons_of_mem _ hstart, hpath⟩
  | case3 first waiting seen hfresh hknown ih =>
    intro node hnode
    rcases List.mem_cons.1 hnode with rfl | hlater
    · exact ⟨node, List.mem_cons_self, .refl⟩
    · obtain ⟨start, hstart, hpath⟩ := ih node hlater
      rcases mem_enqueue.1 hstart with hlink | hwaiting
      · exact ⟨first, List.mem_cons_self, .head ⟨hknown, hlink⟩ hpath⟩
      · exact ⟨start, List.mem_cons_of_mem _ hwaiting, hpath⟩
  | case4 first waiting seen hfresh hknown ih =>
    intro node hnode
    rcases List.mem_cons.1 hnode with rfl | hlater
    · exact ⟨node, List.mem_cons_self, .refl⟩
    · obtain ⟨start, hstart, hpath⟩ := ih node hlater
      exact ⟨start, List.mem_cons_of_mem _ hstart, hpath⟩

/-! ### A whole search -/

theorem search_nodup (start : List α) : (search order known links start).Nodup :=
  searchFrom_nodup start []

/-- A search finds exactly what can be reached from where it starts. -/
theorem mem_search_iff {start : List α} {node : α} :
    node ∈ search order known links start ↔
      ∃ first ∈ start, Relation.ReflTransGen (Link known links) first node := by
  constructor
  · exact exists_path_of_mem_searchFrom start [] node
  · rintro ⟨first, hfirst, hpath⟩
    induction hpath with
    | refl => exact (mem_searchFrom_of_waiting start [] first hfirst).resolve_left List.not_mem_nil
    | tail _ hlink ih => exact (mem_searchFrom_of_link start [] _ ih hlink).resolve_left List.not_mem_nil

/-! ### Climbing -/

/-- Going up from a node, the test first succeeds after so many steps, with this result. -/
inductive Climbs {α β : Type} (next : α → Option α) (test : α → Option β) : (steps : Nat) → α → β → Prop
  | here {node : α} {result : β} : test node = some result → Climbs next test 0 node result
  | above {steps : Nat} {node upper : α} {result : β} : test node = none → next node = some upper →
      Climbs next test steps upper result → Climbs next test (steps + 1) node result

variable {β : Type} {next : α → Option α} {test : α → Option β}

omit [DecidableEq α] in
private theorem Climbs.steps_unique {left right : Nat} {node : α} {result other : β}
    (h : Climbs next test left node result)
    (hother : Climbs next test right node other) : left = right := by
  induction h generalizing right with
  | here htest =>
    cases hother with
    | here => rfl
    | above hnone => cases htest.symm.trans hnone
  | above hnone hnext _ ih =>
    cases hother with
    | here htest => cases htest.symm.trans hnone
    | above _ hnext' hclimbs =>
      obtain rfl := Option.some.inj (hnext.symm.trans hnext')
      rw [ih hclimbs]

omit [DecidableEq α] in
/-- A climb does not come back to a node that had further to go. -/
theorem Climbs.not_mem_seen {steps : Nat} {node : α} {result : β} (h : Climbs next test steps node result)
    {seen : List α} (hseen : ∀ earlier ∈ seen, ∃ more, steps < more ∧ Climbs next test more earlier result) :
    node ∉ seen := by
  intro hmem
  obtain ⟨more, hlt, hmore⟩ := hseen node hmem
  exact Nat.ne_of_lt hlt (h.steps_unique hmore)

theorem Climbs.findSome?_searchFrom {steps : Nat} {node : α} {result : β} (h : Climbs next test steps node result)
    (hknown : ∀ node upper, next node = some upper → node ∈ known) {seen : List α}
    (hseen : ∀ earlier ∈ seen, ∃ more, steps < more ∧ Climbs next test more earlier result) :
    (searchFrom order known (fun node => (next node).toList) [node] seen).findSome? test = some result := by
  induction h generalizing seen with
  | @here node result htest =>
    rw [searchFrom, if_neg ((Climbs.here htest).not_mem_seen hseen)]
    split <;> rw [List.findSome?_cons, htest]
  | @above steps node upper result hnone hnext hclimbs ih =>
    have hfresh := (Climbs.above hnone hnext hclimbs).not_mem_seen hseen
    have henqueue : order.enqueue (next node).toList [] = [upper] := by
      rw [hnext]
      cases order <;> rfl
    rw [searchFrom, if_neg hfresh, if_pos (hknown node upper hnext), henqueue, List.findSome?_cons, hnone]
    apply ih
    intro earlier hearlier
    rcases List.mem_cons.1 hearlier with rfl | hmem
    · exact ⟨steps + 1, Nat.lt_succ_self steps, .above hnone hnext hclimbs⟩
    · obtain ⟨more, hlt, hmore⟩ := hseen earlier hmem
      exact ⟨more, Nat.lt_of_succ_lt hlt, hmore⟩

/-- What a climb lists later lies above what it lists earlier. -/
theorem searchFrom_climb_pairwise (waiting seen : List α) (hone : waiting.length ≤ 1) :
    (searchFrom order known (fun node => (next node).toList) waiting seen).Pairwise
      (Relation.ReflTransGen (Link known fun node => (next node).toList)) := by
  fun_induction searchFrom order known (fun node => (next node).toList) waiting seen with
  | case1 => exact .nil
  | case2 first waiting seen hseen ih => exact ih (Nat.le_of_succ_le hone)
  | case3 first waiting seen hfresh hknown ih =>
    obtain rfl : waiting = [] := by simpa using hone
    have henqueue : order.enqueue (next first).toList [] = (next first).toList := by
      cases order <;> simp [SearchOrder.enqueue]
    rw [henqueue] at ih ⊢
    refine List.pairwise_cons.2 ⟨fun later hlater => ?_, ih (by cases next first <;> simp)⟩
    obtain ⟨start, hstart, hpath⟩ := exists_path_of_mem_searchFrom _ _ later hlater
    exact hpath.head ⟨hknown, hstart⟩
  | case4 first waiting seen hfresh hknown ih =>
    obtain rfl : waiting = [] := by simpa using hone
    rw [searchFrom]
    exact List.pairwise_singleton _ _

theorem search_climb_pairwise (start : α) :
    (search order known (fun node => (next node).toList) [start]).Pairwise
      (Relation.ReflTransGen (Link known fun node => (next node).toList)) :=
  searchFrom_climb_pairwise [start] [] (Nat.le_refl 1)

theorem Climbs.findSome?_search {steps : Nat} {node : α} {result : β} (h : Climbs next test steps node result)
    (hknown : ∀ node upper, next node = some upper → node ∈ known) :
    (search order known (fun node => (next node).toList) [node]).findSome? test = some result :=
  h.findSome?_searchFrom hknown fun _ hmem => absurd hmem List.not_mem_nil

/-! ### Depth first -/

/-- The work that waits is done from the front: what comes after it meets what it has found as seen. -/
theorem searchFrom_depthFirst_append (first second seen : List α) :
    searchFrom .depthFirst known links (first ++ second) seen
      = searchFrom .depthFirst known links first seen
        ++ searchFrom .depthFirst known links second ((searchFrom .depthFirst known links first seen).reverse ++ seen) := by
  fun_induction searchFrom .depthFirst known links first seen with
  | case1 => rfl
  | case2 node waiting seen hseen ih => rw [List.cons_append, searchFrom, if_pos hseen, ih]
  | case3 node waiting seen hfresh hknown ih =>
    have hfront : SearchOrder.depthFirst.enqueue (links node) (waiting ++ second)
        = SearchOrder.depthFirst.enqueue (links node) waiting ++ second := (List.append_assoc ..).symm
    rw [List.cons_append, searchFrom, if_neg hfresh, if_pos hknown, hfront, ih]
    simp
  | case4 node waiting seen hfresh hknown ih =>
    rw [List.cons_append, searchFrom, if_neg hfresh, if_neg hknown, ih]
    simp

/-- A function follows the plain recursion for a test: it tries the test on a node and then itself on the links. -/
def FollowsLinks (links : α → List α) (test result : α → Option β) : Prop :=
  ∀ node, result node = (test node).or ((links node).findSome? result)

omit [DecidableEq α] in
/-- Where the plain recursion fails it fails on everything behind. -/
theorem FollowsLinks.eq_none_of_path {test result : α → Option β} (h : FollowsLinks links test result) {node target : α}
    (hpath : Relation.ReflTransGen (Link known links) node target) (hnone : result node = none) :
    result target = none := by
  induction hpath with
  | refl => exact hnone
  | tail _ hlink ih =>
    rw [h, Option.or_eq_none_iff, List.findSome?_eq_none_iff] at ih
    exact ih.2 _ hlink.2

omit [DecidableEq α] in
private theorem rank_le_of_path {rank : α → Nat} (hrank : ∀ node, ∀ upper ∈ links node, rank upper < rank node)
    {node target : α} (hpath : Relation.ReflTransGen (Link known links) node target) : rank target ≤ rank node := by
  induction hpath with
  | refl => exact Nat.le_refl _
  | tail _ hlink ih => exact Nat.le_of_lt (Nat.lt_of_lt_of_le (hrank _ _ hlink.2) ih)

/-- Searching from one node follows the plain recursion if searching from its links does. -/
theorem FollowsLinks.findSome?_searchFrom_singleton {test result : α → Option β} (h : FollowsLinks links test result)
    (hknown : ∀ node ∉ known, links node = []) {first : α} {seen : List α}
    (hseen : first ∈ seen → result first = none)
    (hbehind : first ∉ seen → first ∈ known →
      (searchFrom .depthFirst known links (links first) (first :: seen)).findSome? test
        = (links first).findSome? result) :
    (searchFrom .depthFirst known links [first] seen).findSome? test = result first := by
  by_cases hmem : first ∈ seen
  · rw [searchFrom, if_pos hmem, searchFrom, hseen hmem]
    rfl
  · by_cases hlinks : first ∈ known
    · rw [searchFrom, if_neg hmem, if_pos hlinks, SearchOrder.enqueue, List.append_nil, List.findSome?_cons,
        hbehind hmem hlinks, h first]
      cases test first <;> rfl
    · rw [searchFrom, if_neg hmem, if_neg hlinks, searchFrom, h first, hknown first hlinks]
      cases htest : test first <;> simp [htest]

/-- If links always lead to a lower rank, and what was seen has failed as far as it can be met again, the test on what is
found has the result of the plain recursion on the work that waits. -/
theorem FollowsLinks.findSome?_searchFrom {test result : α → Option β} (h : FollowsLinks links test result)
    (hknown : ∀ node ∉ known, links node = []) {rank : α → Nat}
    (hrank : ∀ node, ∀ upper ∈ links node, rank upper < rank node) (bound : Nat) :
    ∀ waiting seen, (∀ first ∈ waiting, rank first < bound) →
      (∀ first ∈ waiting, ∀ earlier ∈ seen, Relation.ReflTransGen (Link known links) first earlier →
        result earlier = none) →
      (searchFrom .depthFirst known links waiting seen).findSome? test = waiting.findSome? result := by
  induction bound with
  | zero =>
    intro waiting seen hbound hseen
    cases waiting with
    | nil => simp [searchFrom]
    | cons first rest => exact absurd (hbound first List.mem_cons_self) (Nat.not_lt_zero _)
  | succ bound ih =>
    intro waiting
    induction waiting with
    | nil => simp [searchFrom]
    | cons first rest ihrest =>
      intro seen hbound hseen
      have hmeets := hseen first List.mem_cons_self
      have hfirst : (searchFrom .depthFirst known links [first] seen).findSome? test = result first := by
        refine h.findSome?_searchFrom_singleton hknown (hmeets first · .refl) fun _ hlinks => ih _ _ ?_ ?_
        · intro upper hupper
          have hlower := hrank first upper hupper
          exact Nat.lt_of_lt_of_le hlower (Nat.lt_succ_iff.1 (hbound first List.mem_cons_self))
        · -- no links lead back to the node itself
          intro upper hupper earlier hearlier hpath
          rcases List.mem_cons.1 hearlier with rfl | hbefore
          · have hle := rank_le_of_path hrank hpath
            exact absurd (hrank _ _ hupper) (Nat.not_lt.2 hle)
          · exact hmeets earlier hbefore (hpath.head ⟨hlinks, hupper⟩)
      rw [← List.singleton_append, searchFrom_depthFirst_append, List.findSome?_append, hfirst, List.findSome?_append]
      cases hresult : result first with
      | some found => simp [hresult]
      | none =>
        -- everything found from the first has failed with it
        rw [ihrest _ (fun other hother => hbound other (List.mem_cons_of_mem _ hother))]
        · simp [hresult]
        · intro other hother earlier hearlier hpath
          rcases List.mem_append.1 hearlier with hfound | hbefore
          · obtain ⟨start, hstart, hreach⟩ :=
              exists_path_of_mem_searchFrom [first] seen earlier (List.mem_reverse.1 hfound)
            obtain rfl := List.mem_singleton.1 hstart
            exact h.eq_none_of_path hreach hresult
          · exact hseen other (List.mem_cons_of_mem _ hother) earlier hbefore hpath

theorem FollowsLinks.findSome?_search {test result : α → Option β} (h : FollowsLinks links test result)
    (hknown : ∀ node ∉ known, links node = []) {rank : α → Nat}
    (hrank : ∀ node, ∀ upper ∈ links node, rank upper < rank node) (node : α) :
    (search .depthFirst known links [node]).findSome? test = result node := by
  have hsearch := h.findSome?_searchFrom hknown hrank (rank node + 1) [node] []
    (fun first hfirst => by rw [List.mem_singleton.1 hfirst]; exact Nat.lt_succ_self _)
    (fun _ _ earlier hearlier => absurd hearlier List.not_mem_nil)
  rw [search, hsearch]
  cases hresult : result node <;> simp [hresult]

end Bytecode.Graph

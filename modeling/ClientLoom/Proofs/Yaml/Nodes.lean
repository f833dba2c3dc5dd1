import ClientLoom.Yaml.Node

/-! # The nodes of a document

A document has finitely many nodes: those of its root and those of its anchored nodes
(`Document.nodes`), one less than `Document.bound`.  With a node they contain its parts, among
which the node that an alias stands for (`Document.closed_nodes`). -/

namespace ClientLoom.Yaml

namespace Node

mutual

/-- A node and the nodes inside it. -/
def nodes : Node → List Node
  | .scalar line tag style text => [.scalar line tag style text]
  | .sequence line tag items => .sequence line tag items :: listNodes items
  | .mapping line tag entries => .mapping line tag entries :: entryNodes entries
  | .alias line name target => [.alias line name target]

/-- The nodes in a list of nodes. -/
def listNodes : List Node → List Node
  | [] => []
  | n :: ns => n.nodes ++ listNodes ns

/-- The nodes in the entries of a mapping. -/
def entryNodes : List (Node × Node) → List Node
  | [] => []
  | (k, v) :: rest => k.nodes ++ (v.nodes ++ entryNodes rest)

end

mutual

theorem length_nodes (n : Node) : n.nodes.length = n.size := by
  match n with
  | .scalar _ _ _ _ => simp [nodes, size]
  | .sequence _ _ items => simp [nodes, size, length_listNodes items]
  | .mapping _ _ entries => simp [nodes, size, length_entryNodes entries]
  | .alias _ _ _ => simp [nodes, size]

theorem length_listNodes (ns : List Node) : (listNodes ns).length = sizes ns := by
  cases ns with
  | nil => simp [listNodes, sizes]
  | cons n ns => simp [listNodes, sizes, length_nodes n, length_listNodes ns]

theorem length_entryNodes (entries : List (Node × Node)) :
    (entryNodes entries).length = entrySizes entries := by
  cases entries with
  | nil => simp [entryNodes, entrySizes]
  | cons e rest =>
      obtain ⟨k, v⟩ := e
      simp [entryNodes, entrySizes, length_nodes k, length_nodes v, length_entryNodes rest]
      omega

end

theorem mem_nodes_self (n : Node) : n ∈ n.nodes := by
  cases n <;> simp [nodes]

theorem mem_listNodes {n : Node} {ns : List Node} (h : n ∈ ns) : n ∈ listNodes ns := by
  induction ns with
  | nil => cases h
  | cons x ns ih =>
      rw [listNodes, List.mem_append]
      rcases List.mem_cons.mp h with rfl | h
      · exact .inl n.mem_nodes_self
      · exact .inr (ih h)

theorem mem_entryNodes {e : Node × Node} {entries : List (Node × Node)} (h : e ∈ entries) :
    e.1 ∈ entryNodes entries ∧ e.2 ∈ entryNodes entries := by
  induction entries with
  | nil => cases h
  | cons x rest ih =>
      simp only [entryNodes, List.mem_append]
      rcases List.mem_cons.mp h with rfl | h
      · exact ⟨.inl (mem_nodes_self _), .inr (.inl (mem_nodes_self _))⟩
      · exact ⟨.inr (.inr (ih h).1), .inr (.inr (ih h).2)⟩

/-! ### Nodes inside nodes -/

mutual

theorem nodes_sublist {m n : Node} (h : m ∈ n.nodes) : m.nodes.Sublist n.nodes := by
  match n with
  | .scalar _ _ _ _ => exact List.mem_singleton.mp h ▸ List.Sublist.refl _
  | .sequence _ _ items =>
      rcases List.mem_cons.mp h with rfl | h
      · exact List.Sublist.refl _
      · exact (nodes_sublist_listNodes h).cons _
  | .mapping _ _ entries =>
      rcases List.mem_cons.mp h with rfl | h
      · exact List.Sublist.refl _
      · exact (nodes_sublist_entryNodes h).cons _
  | .alias _ _ _ => exact List.mem_singleton.mp h ▸ List.Sublist.refl _

theorem nodes_sublist_listNodes {m : Node} {ns : List Node} (h : m ∈ listNodes ns) :
    m.nodes.Sublist (listNodes ns) := by
  cases ns with
  | nil => cases h
  | cons n ns =>
      rcases List.mem_append.mp h with h | h
      · exact (nodes_sublist h).trans (List.sublist_append_left _ _)
      · exact (nodes_sublist_listNodes h).trans (List.sublist_append_right _ _)

theorem nodes_sublist_entryNodes {m : Node} {entries : List (Node × Node)}
    (h : m ∈ entryNodes entries) : m.nodes.Sublist (entryNodes entries) := by
  cases entries with
  | nil => cases h
  | cons e rest =>
      obtain ⟨k, v⟩ := e
      rcases List.mem_append.mp h with h | h
      · exact (nodes_sublist h).trans (List.sublist_append_left _ _)
      · refine List.Sublist.trans ?_ (List.sublist_append_right _ _)
        rcases List.mem_append.mp h with h | h
        · exact (nodes_sublist h).trans (List.sublist_append_left _ _)
        · exact (nodes_sublist_entryNodes h).trans (List.sublist_append_right _ _)

end

theorem size_lt_of_mem_items {line : Nat} {tag : String} {items : List Node} {n : Node}
    (h : n ∈ items) : n.size < (sequence line tag items).size := by
  have hle := (nodes_sublist_listNodes (mem_listNodes h)).length_le
  rw [length_nodes, length_listNodes] at hle
  exact Nat.lt_succ_of_le hle

theorem size_lt_of_mem_entries {line : Nat} {tag : String} {entries : List (Node × Node)}
    {e : Node × Node} (h : e ∈ entries) :
    e.1.size < (mapping line tag entries).size ∧ e.2.size < (mapping line tag entries).size := by
  obtain ⟨hkey, hvalue⟩ := mem_entryNodes h
  have hkey := (nodes_sublist_entryNodes hkey).length_le
  have hvalue := (nodes_sublist_entryNodes hvalue).length_le
  rw [length_nodes, length_entryNodes] at hkey hvalue
  exact ⟨Nat.lt_succ_of_le hkey, Nat.lt_succ_of_le hvalue⟩

end Node

/-! ### Documents -/

namespace Document

/-- The nodes of a document. -/
def nodes (d : Document) : List Node :=
  (d.root.map Node.nodes).getD [] ++ Node.listNodes d.anchors

theorem length_nodes (d : Document) : d.nodes.length + 1 = d.bound := by
  unfold nodes bound
  cases d.root <;> simp [Node.length_nodes, Node.length_listNodes]

/-- `m` is a part of `n`: an item, a key or a value in it, or what it stands for as an alias. -/
inductive Part (d : Document) : Node → Node → Prop where
  | item {line : Nat} {tag : String} {items : List Node} {m : Node} :
      m ∈ items → Part d (.sequence line tag items) m
  | key {line : Nat} {tag : String} {entries : List (Node × Node)} {e : Node × Node} :
      e ∈ entries → Part d (.mapping line tag entries) e.1
  | value {line : Nat} {tag : String} {entries : List (Node × Node)} {e : Node × Node} :
      e ∈ entries → Part d (.mapping line tag entries) e.2
  | target {line : Nat} {name : String} {target : Nat} {m : Node} :
      d.anchors[target]? = some m → Part d (.alias line name target) m

/-- Nodes in `S` have their parts in `S`. -/
def Closed (d : Document) (S : Node → Prop) : Prop := ∀ {n m : Node}, S n → d.Part n m → S m

theorem nodes_sublist {d : Document} {n : Node} (h : n ∈ d.nodes) : n.nodes.Sublist d.nodes := by
  rcases List.mem_append.mp h with h | h
  · cases hroot : d.root with
    | none => simp [hroot] at h
    | some r =>
        rw [hroot] at h
        have hsub : n.nodes.Sublist r.nodes := Node.nodes_sublist h
        rw [nodes, hroot]
        exact hsub.trans (List.sublist_append_left _ _)
  · exact (Node.nodes_sublist_listNodes h).trans (List.sublist_append_right _ _)

theorem nodes_subset {d : Document} {n : Node} (h : n ∈ d.nodes) : n.nodes ⊆ d.nodes :=
  (nodes_sublist h).subset

/-- A node of a document is smaller than its bound. -/
theorem size_lt_bound {d : Document} {n : Node} (h : n ∈ d.nodes) : n.size < d.bound := by
  rw [← Node.length_nodes, ← length_nodes]
  exact Nat.lt_succ_of_le (nodes_sublist h).length_le

theorem closed_nodes (d : Document) : d.Closed (· ∈ d.nodes) := by
  intro n m hn hpart
  cases hpart with
  | item h => exact nodes_subset hn (by simp [Node.nodes, Node.mem_listNodes h])
  | key h => exact nodes_subset hn (by simp [Node.nodes, (Node.mem_entryNodes h).1])
  | value h => exact nodes_subset hn (by simp [Node.nodes, (Node.mem_entryNodes h).2])
  | target h => exact List.mem_append_right _ (Node.mem_listNodes (List.mem_of_getElem? h))

theorem mem_nodes_root {d : Document} {n : Node} (h : d.root = some n) : n ∈ d.nodes := by
  rw [nodes, h]
  exact List.mem_append_left _ n.mem_nodes_self

end Document
end ClientLoom.Yaml

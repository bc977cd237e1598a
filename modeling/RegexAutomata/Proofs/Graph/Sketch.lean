import RegexAutomata.Proofs.Graph.Source

/-!
# What the picture of a tree shows

A node is drawn first, and then its children one after the other, each with all below it and with
the arrow to it.  So the nodes are numbered in pre-order, and the arrows that leave a node go to its
children from left to right, but node and edge statements stand mixed.  Labels and numbers of
children in pre-order determine a tree, and so do its statements.
-/

namespace RegexAutomata

open Dot (Statement)

namespace Dot

def Statement.isNode : Statement → Bool
  | node _ _ => true
  | edge _ _ _ => false

def Statement.leaves (name : String) : Statement → Bool
  | node _ _ => false
  | edge tail _ _ => tail == name

end Dot

/-- What a picture shows of a tree: the labels of the nodes, and how the nodes are connected. -/
inductive Sketch where
  | character (label : String)
  | unary (label : String) (operand : Sketch)
  | binary (label : String) (left right : Sketch)
  deriving DecidableEq, Repr

namespace Sketch

def label : Sketch → String
  | character label => label
  | unary label _ => label
  | binary label _ _ => label

def isCharacter : Sketch → Bool
  | character _ => true
  | unary _ _ => false
  | binary _ _ _ => false

def children : Sketch → List Sketch
  | character _ => []
  | unary _ operand => [operand]
  | binary _ left right => [left, right]

/-- A node of a child, seen from the parent: the way to it starts with a step to the child. -/
def stepTo (place : Nat) (entry : List Nat × Sketch) : List Nat × Sketch :=
  (place :: entry.1, entry.2)

/-- The nodes in pre-order.  Each is the way down to it, as places among the children, and the tree
that stands at its end. -/
def nodes : Sketch → List (List Nat × Sketch)
  | character label => [([], character label)]
  | unary label operand => ([], unary label operand) :: operand.nodes.map (stepTo 0)
  | binary label left right =>
    ([], binary label left right) :: (left.nodes.map (stepTo 0) ++ right.nodes.map (stepTo 1))

/-- In a list of nodes the children of a node have these places, from left to right. -/
def ChildrenAt (entries : List (List Nat × Sketch)) (way : List Nat) (node : Sketch)
    (numbers : List Nat) : Prop :=
  numbers.map (entries[·]?) = node.children.mapIdx fun place child => some (way ++ [place], child)

def drawnNode (start number : Nat) (entry : List Nat × Sketch) : Statement :=
  treeNode (start + number) entry.2.label entry.2.isCharacter

/-- The statements are a picture of a tree whose nodes are numbered in pre-order from a given number
on: there is one node statement for each node, with its number, label and shape, and one arrow from
each node to each of its children, in their order. -/
structure DepictedBy (sketch : Sketch) (start : Nat) (statements : List Statement) : Prop where
  drawn_nodes : statements.filter Statement.isNode = sketch.nodes.mapIdx (drawnNode start)
  arrows : ∀ number way node, sketch.nodes[number]? = some (way, node) →
    ∃ numbers, ChildrenAt sketch.nodes way node numbers ∧
      statements.filter (Statement.leaves (toString (start + number))) =
        numbers.map fun child => treeEdge (start + number) (start + child)
  no_other : ∀ tail head attributes, Statement.edge tail head attributes ∈ statements →
    ∃ number < sketch.nodes.length, tail = toString (start + number)

variable {sketch operand left right : Sketch} {label : String} {start number : Nat}
  {statements below first second : List Statement}

theorem getElem?_nodes_zero (sketch : Sketch) : sketch.nodes[0]? = some ([], sketch) := by
  cases sketch <;> rfl

section Drawing

variable {entries whole part : List (List Nat × Sketch)} {way steps : List Nat}
  {node child : Sketch} {numbers : List Nat}

theorem filter_leaves_treeEdge (number parent child : Nat) :
    [treeEdge parent child].filter (Statement.leaves (toString number)) =
      if parent = number then [treeEdge parent child] else [] := by
  have hleaves : Statement.leaves (toString number) (treeEdge parent child) =
      decide (parent = number) := by
    rw [treeEdge, Statement.leaves, Bool.eq_iff_iff, beq_iff_eq, Dot.toString_inj,
      decide_eq_true_iff]
  rw [List.filter_singleton, hleaves, Bool.cond_decide]

theorem mapIdx_drawnNode_stepTo (place start skip : Nat) (entries : List (List Nat × Sketch)) :
    (entries.map (stepTo place)).mapIdx (fun number => drawnNode start (number + skip)) =
      entries.mapIdx (drawnNode (start + skip)) := by
  apply List.ext_getElem?
  intro number
  rw [List.getElem?_mapIdx, List.getElem?_mapIdx, List.getElem?_map, Option.map_map]
  apply congrArg (Option.map · entries[number]?)
  funext entry
  rw [Function.comp_apply, drawnNode, drawnNode, stepTo, Nat.add_comm number, Nat.add_assoc]

/-- Where one list of nodes is found in another one, so are the children of its nodes. -/
theorem ChildrenAt.embed {shift : Nat → Nat}
    (hembed : ∀ number way node, part[number]? = some (way, node) →
      whole[shift number]? = some (steps ++ way, node))
    (hchildren : ChildrenAt part way node numbers) :
    ChildrenAt whole (steps ++ way) node (numbers.map shift) := by
  have hfound : (numbers.map shift).map (whole[·]?) =
      (numbers.map (part[·]?)).map (Option.map fun entry => (steps ++ entry.1, entry.2)) := by
    rw [List.map_map, List.map_map]
    apply List.map_congr_left
    intro number hnumber
    have hmem : part[number]? ∈ numbers.map (part[·]?) := List.mem_map_of_mem hnumber
    rw [hchildren] at hmem
    obtain ⟨place, hless, hentry⟩ := List.mem_mapIdx.1 hmem
    rw [Function.comp_apply, Function.comp_apply, hembed number _ _ hentry.symm, ← hentry]
    rfl
  rw [ChildrenAt, hfound, hchildren]
  cases node <;> simp [children]

theorem ChildrenAt.append (hchildren : ChildrenAt entries way node numbers)
    (others : List (List Nat × Sketch)) : ChildrenAt (entries ++ others) way node numbers := by
  have hembed : ChildrenAt (entries ++ others) ([] ++ way) node (numbers.map id) := by
    apply hchildren.embed
    intro number way node hentry
    have hless := (List.getElem?_eq_some_iff.1 hentry).1
    exact (List.getElem?_append_left hless).trans hentry
  rwa [List.map_id, List.nil_append] at hembed

theorem ChildrenAt.shift (hchildren : ChildrenAt child.nodes way node numbers) (place : Nat)
    (entries : List (List Nat × Sketch)) :
    ChildrenAt (entries ++ child.nodes.map (stepTo place)) (place :: way) node
      (numbers.map (entries.length + ·)) := by
  have hembed : ChildrenAt (entries ++ child.nodes.map (stepTo place)) ([place] ++ way) node
      (numbers.map (entries.length + ·)) := by
    apply hchildren.embed
    intro number way node hentry
    rw [List.getElem?_append_right (Nat.le_add_right _ _), Nat.add_sub_cancel_left,
      List.getElem?_map, hentry]
    rfl
  exact hembed

/-- A picture under way: the root is drawn, and some of its children with all below them.  So far
the arrows from the root go to the children that are drawn. -/
structure Begun (start : Nat) (entries : List (List Nat × Sketch)) (numbers : List Nat)
    (statements : List Statement) : Prop where
  nonempty : 0 < entries.length
  drawn_nodes : statements.filter Statement.isNode = entries.mapIdx (drawnNode start)
  root : statements.filter (Statement.leaves (toString start)) =
    numbers.map fun child => treeEdge start (start + child)
  arrows : ∀ number way node, 0 < number → entries[number]? = some (way, node) →
    ∃ numbers, ChildrenAt entries way node numbers ∧
      statements.filter (Statement.leaves (toString (start + number))) =
        numbers.map fun child => treeEdge (start + number) (start + child)
  no_other : ∀ tail head attributes, Statement.edge tail head attributes ∈ statements →
    ∃ number < entries.length, tail = toString (start + number)

/-- A picture begins with its root, from which no arrow leads as yet. -/
theorem begun_root (sketch : Sketch) (start : Nat) :
    Begun start [([], sketch)] [] [treeNode start sketch.label sketch.isCharacter] := by
  constructor
  case nonempty => exact Nat.succ_pos 0
  case drawn_nodes => rfl
  case root => rfl
  case arrows =>
    intro number way node hpositive hnode
    cases number with
    | zero => exact absurd hpositive (Nat.lt_irrefl 0)
    | succ number => cases hnode
  case no_other =>
    intro tail head attributes hmem
    cases List.mem_singleton.1 hmem

theorem filter_leaves_eq_nil
    (hother : ∀ tail head attributes, Statement.edge tail head attributes ∈ statements →
      ∃ other, other ≠ number ∧ tail = toString other) :
    statements.filter (Statement.leaves (toString number)) = [] := by
  apply List.filter_eq_nil_iff.2
  intro statement hmem hleaves
  cases statement with
  | node name attributes => cases hleaves
  | edge tail head attributes =>
    obtain ⟨other, hne, htail⟩ := hother tail head attributes hmem
    rw [Statement.leaves, beq_iff_eq, htail, Dot.toString_inj] at hleaves
    exact hne hleaves

theorem DepictedBy.filter_leaves_before (hdepicted : sketch.DepictedBy start statements)
    (hless : number < start) : statements.filter (Statement.leaves (toString number)) = [] := by
  apply filter_leaves_eq_nil
  intro tail head attributes hmem
  obtain ⟨inside, -, htail⟩ := hdepicted.no_other tail head attributes hmem
  exact ⟨start + inside, by omega, htail⟩

theorem Begun.filter_leaves_after (hbegun : Begun start entries numbers statements)
    (hmore : entries.length ≤ number) :
    statements.filter (Statement.leaves (toString (start + number))) = [] := by
  apply filter_leaves_eq_nil
  intro tail head attributes hmem
  obtain ⟨inside, hinside, htail⟩ := hbegun.no_other tail head attributes hmem
  exact ⟨start + inside, by omega, htail⟩

/-- A child is drawn, and then the arrow to it. -/
theorem Begun.draw (place : Nat) (hbegun : Begun start entries numbers statements)
    (hchild : child.DepictedBy (start + entries.length) below) :
    Begun start (entries ++ child.nodes.map (stepTo place)) (numbers ++ [entries.length])
      (statements ++ below ++ [treeEdge start (start + entries.length)]) := by
  have hpositive := hbegun.nonempty
  have hfilter : ∀ number, (statements ++ below ++
      [treeEdge start (start + entries.length)]).filter (Statement.leaves (toString number)) =
        statements.filter (Statement.leaves (toString number)) ++
          below.filter (Statement.leaves (toString number)) ++
            if start = number then [treeEdge start (start + entries.length)] else [] := by
    intro number
    rw [List.filter_append, List.filter_append, filter_leaves_treeEdge]
  constructor
  case nonempty =>
    rw [List.length_append]
    exact Nat.lt_add_right _ hpositive
  case drawn_nodes =>
    rw [List.filter_append, List.filter_append, hbegun.drawn_nodes, hchild.drawn_nodes,
      List.mapIdx_append, mapIdx_drawnNode_stepTo]
    exact List.append_nil _
  case root =>
    rw [hfilter, hbegun.root, hchild.filter_leaves_before (by omega), if_pos rfl,
      List.append_nil, List.map_append]
    rfl
  case arrows =>
    intro number way node hnumber hnode
    rcases Nat.lt_or_ge number entries.length with hless | hmore
    · rw [List.getElem?_append_left hless] at hnode
      obtain ⟨numbers, hchildren, harrows⟩ := hbegun.arrows number way node hnumber hnode
      refine ⟨numbers, hchildren.append _, ?_⟩
      rw [hfilter, harrows, hchild.filter_leaves_before (by omega), if_neg (by omega),
        List.append_nil, List.append_nil]
    · rw [List.getElem?_append_right hmore, List.getElem?_map, Option.map_eq_some_iff] at hnode
      obtain ⟨⟨rest, other⟩, hentry, hstep⟩ := hnode
      cases hstep
      obtain ⟨numbers, hchildren, harrows⟩ := hchild.arrows _ rest other hentry
      refine ⟨numbers.map (entries.length + ·), hchildren.shift place entries, ?_⟩
      have hsame : start + entries.length + (number - entries.length) = start + number := by omega
      rw [hsame] at harrows
      rw [hfilter, hbegun.filter_leaves_after hmore, harrows, if_neg (by omega),
        List.append_nil, List.nil_append, List.map_map]
      simp only [Function.comp_def, Nat.add_assoc]
  case no_other =>
    intro tail head attributes hmem
    rw [List.length_append, List.length_map]
    rw [List.mem_append, List.mem_append, List.mem_singleton] at hmem
    rcases hmem with (hbefore | hbelow) | harrow
    · obtain ⟨number, hless, htail⟩ := hbegun.no_other _ _ _ hbefore
      exact ⟨number, by omega, htail⟩
    · obtain ⟨number, hless, htail⟩ := hchild.no_other _ _ _ hbelow
      exact ⟨entries.length + number, by omega, by rw [htail, Nat.add_assoc]⟩
    · cases harrow
      exact ⟨0, by omega, rfl⟩

/-- When all children are drawn, the picture is complete. -/
theorem Begun.depictedBy (hbegun : Begun start sketch.nodes numbers statements)
    (hchildren : ChildrenAt sketch.nodes [] sketch numbers) :
    sketch.DepictedBy start statements := by
  constructor
  case drawn_nodes => exact hbegun.drawn_nodes
  case arrows =>
    intro number way node hnode
    cases number with
    | zero =>
      rw [getElem?_nodes_zero] at hnode
      cases hnode
      exact ⟨numbers, hchildren, hbegun.root⟩
    | succ number => exact hbegun.arrows _ way node (Nat.succ_pos number) hnode
  case no_other => exact hbegun.no_other

theorem getElem?_map_stepTo_zero (place : Nat) (sketch : Sketch) :
    (sketch.nodes.map (stepTo place))[0]? = some ([place], sketch) := by
  rw [List.getElem?_map, getElem?_nodes_zero]
  rfl

theorem childrenAt_unary (label : String) (operand : Sketch) :
    ChildrenAt (unary label operand).nodes [] (unary label operand) [1] := by
  rw [ChildrenAt, List.map_singleton, nodes, List.getElem?_cons_succ, getElem?_map_stepTo_zero]
  rfl

theorem childrenAt_binary (label : String) (left right : Sketch) :
    ChildrenAt (binary label left right).nodes [] (binary label left right)
      [1, left.nodes.length + 1] := by
  have hleft := getElem?_map_stepTo_zero 0 left
  have hless := (List.getElem?_eq_some_iff.1 hleft).1
  have hlength : (left.nodes.map (stepTo 0)).length ≤ left.nodes.length := by
    rw [List.length_map]
  rw [ChildrenAt, List.map_cons, List.map_singleton, nodes, List.getElem?_cons_succ,
    List.getElem?_append_left hless, hleft, List.getElem?_cons_succ,
    List.getElem?_append_right hlength, List.length_map, Nat.sub_self,
    getElem?_map_stepTo_zero]
  rfl

theorem depictedBy_character (label : String) (start : Nat) :
    (character label).DepictedBy start [treeNode start label true] := by
  apply (begun_root (character label) start).depictedBy
  rfl

theorem DepictedBy.unary (label : String) (hoperand : operand.DepictedBy (start + 1) below) :
    (Sketch.unary label operand).DepictedBy start
      (treeNode start label false :: below ++ [treeEdge start (start + 1)]) := by
  have hdrawn := (begun_root (Sketch.unary label operand) start).draw 0 hoperand
  exact hdrawn.depictedBy (childrenAt_unary label operand)

/-- Pictures of two trees, with a node above both, are a picture of the tree that has them as its
parts. -/
theorem DepictedBy.binary (label : String) (hleft : left.DepictedBy (start + 1) first)
    (hright : right.DepictedBy (start + 1 + left.nodes.length) second) :
    (Sketch.binary label left right).DepictedBy start
      (treeNode start label false :: first ++ treeEdge start (start + 1) :: second ++
        [treeEdge start (start + 1 + left.nodes.length)]) := by
  have hnumber : start + 1 + left.nodes.length =
      start + (([], Sketch.binary label left right) :: left.nodes.map (stepTo 0)).length := by
    rw [List.length_cons, List.length_map, Nat.add_assoc, Nat.add_comm 1]
  have hdrawn := (begun_root (Sketch.binary label left right) start).draw 0 hleft
  rw [hnumber] at hright ⊢
  have hcomplete := hdrawn.draw 1 hright
  rw [List.append_assoc _ [_] second] at hcomplete
  apply hcomplete.depictedBy
  have hchildren := childrenAt_binary label left right
  rwa [← List.length_map (stepTo 0)] at hchildren

end Drawing

section Reading

variable {other : Sketch}

/-- The labels in pre-order, each with the number of children. -/
def spelling (sketch : Sketch) : List (String × Nat) :=
  sketch.nodes.map fun entry => (entry.2.label, entry.2.children.length)

theorem spelling_unary (label : String) (operand : Sketch) :
    (unary label operand).spelling = (label, 1) :: operand.spelling := by
  rw [spelling, nodes, List.map_cons, List.map_map]
  rfl

theorem spelling_binary (label : String) (left right : Sketch) :
    (binary label left right).spelling = (label, 2) :: (left.spelling ++ right.spelling) := by
  rw [spelling, nodes, List.map_cons, List.map_append, List.map_map, List.map_map]
  rfl

/-- A tree can be read from the front of a spelling. -/
theorem spelling_append_inj {rest others : List (String × Nat)}
    (hequal : sketch.spelling ++ rest = other.spelling ++ others) :
    sketch = other ∧ rest = others := by
  induction sketch generalizing other rest others with
  | character label =>
    cases other with
    | character label =>
      obtain ⟨hroot, hrest⟩ := List.cons.inj hequal
      cases hroot
      exact ⟨rfl, hrest⟩
    | unary label operand => cases (List.cons.inj hequal).1
    | binary label left right => cases (List.cons.inj hequal).1
  | unary label operand ih =>
    cases other with
    | character label => cases (List.cons.inj hequal).1
    | unary label operand =>
      rw [spelling_unary, spelling_unary] at hequal
      obtain ⟨hroot, hbelow⟩ := List.cons.inj hequal
      obtain ⟨rfl, hrest⟩ := ih hbelow
      cases hroot
      exact ⟨rfl, hrest⟩
    | binary label left right => cases (List.cons.inj hequal).1
  | binary label left right ihLeft ihRight =>
    cases other with
    | character label => cases (List.cons.inj hequal).1
    | unary label operand => cases (List.cons.inj hequal).1
    | binary label left right =>
      rw [spelling_binary, spelling_binary, List.cons_append, List.cons_append,
        List.append_assoc, List.append_assoc] at hequal
      obtain ⟨hroot, hbelow⟩ := List.cons.inj hequal
      obtain ⟨rfl, hright⟩ := ihLeft hbelow
      obtain ⟨rfl, hrest⟩ := ihRight hright
      cases hroot
      exact ⟨rfl, hrest⟩

theorem ChildrenAt.length_eq {entries : List (List Nat × Sketch)} {way : List Nat} {node : Sketch}
    {numbers : List Nat} (hchildren : ChildrenAt entries way node numbers) :
    numbers.length = node.children.length := by
  have hlength := congrArg List.length hchildren
  rwa [List.length_map, List.length_mapIdx] at hlength

/-- What a picture says of each node is the same for all trees that it may be a picture of. -/
theorem DepictedBy.spelling_eq (hsketch : sketch.DepictedBy start statements)
    (hother : other.DepictedBy start statements) : sketch.spelling = other.spelling := by
  apply List.ext_getElem?
  intro number
  have hdrawn : sketch.nodes[number]?.map (drawnNode start number) =
      other.nodes[number]?.map (drawnNode start number) := by
    rw [← List.getElem?_mapIdx, ← List.getElem?_mapIdx, ← hsketch.drawn_nodes, hother.drawn_nodes]
  rw [spelling, spelling, List.getElem?_map, List.getElem?_map]
  cases hentry : sketch.nodes[number]? with
  | none =>
    rw [hentry] at hdrawn
    rw [Option.map_eq_none_iff.1 hdrawn.symm]
  | some entry =>
    rw [hentry, Option.map_some] at hdrawn
    obtain ⟨otherEntry, hotherEntry, hsame⟩ := Option.map_eq_some_iff.1 hdrawn.symm
    obtain ⟨numbers, hchildren, harrows⟩ := hsketch.arrows number _ _ hentry
    obtain ⟨otherNumbers, hotherChildren, hotherArrows⟩ := hother.arrows number _ _ hotherEntry
    have hcount := congrArg List.length (harrows.symm.trans hotherArrows)
    rw [List.length_map, List.length_map, hchildren.length_eq, hotherChildren.length_eq] at hcount
    have hlabel : otherEntry.2.label = entry.2.label := by
      rw [drawnNode, drawnNode, treeNode, treeNode, Statement.node.injEq, List.cons.injEq,
        Prod.mk.injEq] at hsame
      exact hsame.2.1.2
    rw [hotherEntry, Option.map_some, Option.map_some, hlabel, hcount]

/-- Statements are a picture of one tree only. -/
theorem DepictedBy.eq (hsketch : sketch.DepictedBy start statements)
    (hother : other.DepictedBy start statements) : sketch = other := by
  have hequal : sketch.spelling ++ [] = other.spelling ++ [] := by
    rw [hsketch.spelling_eq hother]
  exact (spelling_append_inj hequal).1

/-- Where all labels are plain, so are the statements. -/
theorem DepictedBy.isPlainStatement (hsketch : sketch.DepictedBy start statements)
    (hplain : ∀ item ∈ sketch.spelling, Dot.IsPlain item.1) :
    ∀ statement ∈ statements, Dot.IsPlainStatement statement := by
  intro statement hmem
  cases statement with
  | node name attributes =>
    have hdrawn : Statement.node name attributes ∈ statements.filter Statement.isNode :=
      List.mem_filter.2 ⟨hmem, rfl⟩
    rw [hsketch.drawn_nodes] at hdrawn
    obtain ⟨number, hless, hequal⟩ := List.mem_mapIdx.1 hdrawn
    rw [← hequal]
    exact .node _ _ _ (hplain _ (List.mem_map_of_mem (List.getElem_mem hless)))
  | edge tail head attributes =>
    obtain ⟨number, hless, rfl⟩ := hsketch.no_other tail head attributes hmem
    obtain ⟨numbers, -, harrows⟩ := hsketch.arrows number _ _ (List.getElem?_eq_getElem hless)
    have harrow : Statement.edge (toString (start + number)) head attributes ∈
        statements.filter (Statement.leaves (toString (start + number))) :=
      List.mem_filter.2 ⟨hmem, beq_self_eq_true _⟩
    rw [harrows] at harrow
    obtain ⟨child, -, hequal⟩ := List.mem_map.1 harrow
    rw [← hequal]
    exact .edge _ _

end Reading

end Sketch
end RegexAutomata

import RegexAutomata.Proofs.Graph.Sketch
import RegexAutomata.Proofs.Regex.UnknownNodes

/-!
# Pictures of trees

A tree is drawn as it is, with the notes on each node if it is annotated.  So trees that are not
equal have different statements.  Their sources differ as well if their characters are letters and
digits; other characters may hold quotes that are escaped already.
-/

namespace RegexAutomata

/-- What the picture of a regular expression shows.  No picture shows an unknown node. -/
def Regex.sketch : Regex → Sketch
  | char value => .character value
  | concat left right => .binary Operator.concat.label left.sketch right.sketch
  | alternation left right => .binary Operator.alternation.label left.sketch right.sketch
  | star inner => .unary Operator.star.label inner.sketch
  | unknown kind _ => .character kind

/-- What the picture of an annotated tree shows.  The labels have the notes on each node. -/
def AnnotatedRegex.sketch : AnnotatedRegex → Sketch
  | leaf value position notes => .character (label (value ++ "\\n" ++ toString position) notes)
  | concat left right notes =>
    .binary (label Operator.concat.label notes) left.sketch right.sketch
  | alternation left right notes =>
    .binary (label Operator.alternation.label notes) left.sketch right.sketch
  | star inner notes => .unary (label Operator.star.label notes) inner.sketch

/-- The picture of a marked expression with the answers about each node. -/
def MarkedRegex.digraph (marked : MarkedRegex) : Digraph :=
  marked.withNotes.digraph

def MarkedRegex.sketch (marked : MarkedRegex) : Sketch :=
  marked.withNotes.sketch

/-- The regular expression whose picture shows this. -/
def Sketch.regex : Sketch → Regex
  | character label => .char label
  | unary _ operand => .star operand.regex
  | binary label left right =>
    if label = Operator.concat.label then .concat left.regex right.regex
    else .alternation left.regex right.regex

theorem Sketch.length_nodes_unary (label : String) (operand : Sketch) (start : Nat) :
    start + (unary label operand).nodes.length = start + 1 + operand.nodes.length := by
  rw [nodes, List.length_cons, List.length_map, Nat.add_assoc, Nat.add_comm 1]

theorem Sketch.length_nodes_binary (label : String) (left right : Sketch) (start : Nat) :
    start + (binary label left right).nodes.length =
      start + 1 + left.nodes.length + right.nodes.length := by
  rw [nodes, List.length_cons, List.length_append, List.length_map, List.length_map]
  omega

namespace Regex

variable {regex : Regex}

/-- A tree without unknown nodes can be told from what its picture shows. -/
theorem regex_sketch (hknown : regex.isKnown) : regex.sketch.regex = regex := by
  induction regex with
  | char value => rfl
  | concat left right ihLeft ihRight =>
    rw [isKnown, Bool.and_eq_true] at hknown
    rw [sketch, Sketch.regex, if_pos rfl, ihLeft hknown.1, ihRight hknown.2]
  | alternation left right ihLeft ihRight =>
    rw [isKnown, Bool.and_eq_true] at hknown
    rw [sketch, Sketch.regex, if_neg (by decide), ihLeft hknown.1, ihRight hknown.2]
  | star inner ih => rw [sketch, Sketch.regex, ih hknown]
  | unknown kind mark => cases hknown

theorem isPlain_sketch (hknown : regex.isKnown)
    (hliteral : ∀ value ∈ regex.values, IsLiteral value) :
    ∀ item ∈ regex.sketch.spelling, Dot.IsPlain item.1 := by
  induction regex with
  | char value =>
    intro item hitem
    rw [List.mem_singleton.1 hitem]
    exact Or.inl (hliteral value List.mem_cons_self)
  | concat left right ihLeft ihRight =>
    rw [isKnown, Bool.and_eq_true] at hknown
    rw [values, List.forall_mem_append] at hliteral
    rw [sketch, Sketch.spelling_binary, List.forall_mem_cons, List.forall_mem_append]
    exact ⟨Or.inr ⟨.concat, rfl⟩, ihLeft hknown.1 hliteral.1, ihRight hknown.2 hliteral.2⟩
  | alternation left right ihLeft ihRight =>
    rw [isKnown, Bool.and_eq_true] at hknown
    rw [values, List.forall_mem_append] at hliteral
    rw [sketch, Sketch.spelling_binary, List.forall_mem_cons, List.forall_mem_append]
    exact ⟨Or.inr ⟨.alternation, rfl⟩, ihLeft hknown.1 hliteral.1, ihRight hknown.2 hliteral.2⟩
  | star inner ih =>
    rw [sketch, Sketch.spelling_unary, List.forall_mem_cons]
    exact ⟨Or.inr ⟨.star, rfl⟩, ih hknown hliteral⟩
  | unknown kind mark => cases hknown

/-- A tree without unknown nodes is drawn, and the next free number comes after all its nodes. -/
theorem exists_statements (hknown : regex.isKnown) (start : Nat) :
    ∃ drawn, regex.statements start = .ok (drawn, start + regex.sketch.nodes.length) ∧
      regex.sketch.DepictedBy start drawn := by
  induction regex generalizing start with
  | char value => exact ⟨_, rfl, Sketch.depictedBy_character value start⟩
  | concat left right ihLeft ihRight =>
    rw [isKnown, Bool.and_eq_true] at hknown
    obtain ⟨first, hfirst, hleft⟩ := ihLeft hknown.1 (start + 1)
    obtain ⟨second, hsecond, hright⟩ :=
      ihRight hknown.2 (start + 1 + left.sketch.nodes.length)
    refine ⟨_, ?_, hleft.binary Operator.concat.label hright⟩
    rw [sketch, Sketch.length_nodes_binary]
    simp only [statements, hfirst, hsecond, bind, Except.bind]
    rfl
  | alternation left right ihLeft ihRight =>
    rw [isKnown, Bool.and_eq_true] at hknown
    obtain ⟨first, hfirst, hleft⟩ := ihLeft hknown.1 (start + 1)
    obtain ⟨second, hsecond, hright⟩ :=
      ihRight hknown.2 (start + 1 + left.sketch.nodes.length)
    refine ⟨_, ?_, hleft.binary Operator.alternation.label hright⟩
    rw [sketch, Sketch.length_nodes_binary]
    simp only [statements, hfirst, hsecond, bind, Except.bind]
    rfl
  | star inner ih =>
    obtain ⟨below, hbelow, hinner⟩ := ih hknown (start + 1)
    refine ⟨_, ?_, hinner.unary Operator.star.label⟩
    rw [sketch, Sketch.length_nodes_unary, statements, hbelow]
    rfl
  | unknown kind mark => cases hknown

/-- Only trees without unknown nodes have a picture, and it shows them. -/
theorem depictedBy_digraph {picture : Digraph} (hpicture : regex.digraph = .ok picture) :
    regex.isKnown ∧ picture = treeDigraph picture.statements ∧
      regex.sketch.DepictedBy 0 picture.statements := by
  have hknown : regex.isKnown := by
    rw [isKnown_iff]
    cases hkinds : regex.unknownKinds with
    | nil => rfl
    | cons kind others =>
      have hblames := digraph_blames regex
      rw [hkinds] at hblames
      rw [hblames.eq_error] at hpicture
      cases hpicture
  obtain ⟨drawn, hdrawn, hdepicted⟩ := exists_statements hknown 0
  have hequal : regex.digraph = .ok (treeDigraph drawn) := by
    rw [digraph, hdrawn]
    rfl
  obtain rfl := Except.ok.inj (hpicture.symm.trans hequal)
  exact ⟨hknown, rfl, hdepicted⟩

end Regex

namespace AnnotatedRegex

/-- The statements of an annotated tree number its nodes in pre-order, and the next free number
comes after them. -/
theorem statements_depict (tree : AnnotatedRegex) (start : Nat) :
    (tree.statements start).2 = start + tree.sketch.nodes.length ∧
      tree.sketch.DepictedBy start (tree.statements start).1 := by
  induction tree generalizing start with
  | leaf value position notes => exact ⟨rfl, Sketch.depictedBy_character _ start⟩
  | concat left right notes ihLeft ihRight =>
    obtain ⟨hsecond, hleft⟩ := ihLeft (start + 1)
    obtain ⟨hnext, hright⟩ := ihRight (start + 1 + left.sketch.nodes.length)
    have hdrawn := hleft.binary (label Operator.concat.label notes) hright
    rw [← hsecond] at hnext hdrawn
    rw [sketch, Sketch.length_nodes_binary, ← hsecond]
    exact ⟨hnext, hdrawn⟩
  | alternation left right notes ihLeft ihRight =>
    obtain ⟨hsecond, hleft⟩ := ihLeft (start + 1)
    obtain ⟨hnext, hright⟩ := ihRight (start + 1 + left.sketch.nodes.length)
    have hdrawn := hleft.binary (label Operator.alternation.label notes) hright
    rw [← hsecond] at hnext hdrawn
    rw [sketch, Sketch.length_nodes_binary, ← hsecond]
    exact ⟨hnext, hdrawn⟩
  | star inner notes ih =>
    obtain ⟨hnext, hinner⟩ := ih (start + 1)
    rw [sketch, Sketch.length_nodes_unary]
    exact ⟨hnext, hinner.unary _⟩

end AnnotatedRegex

/-- A picture shows a tree, annotated or not, node by node and arrow by arrow.  Every tree of known
nodes can be annotated and then drawn, and a marked tree is drawn with the answers about its nodes.
Two trees without annotations have the same statements only if they are equal.  If their characters
are letters and digits, the same holds of the sources. -/
theorem tree_pictures_exact :
    (∀ regex : Regex, regex.isKnown → ∃ picture, regex.digraph = .ok picture ∧
      regex.sketch.DepictedBy 0 picture.statements) ∧
    (∀ tree : AnnotatedRegex, tree.sketch.DepictedBy 0 tree.digraph.statements) ∧
    (∀ regex : Regex, regex.isKnown → ∃ annotated, regex.annotate = .ok annotated ∧
      annotated.root.sketch.DepictedBy 0 annotated.root.digraph.statements) ∧
    (∀ marked : MarkedRegex, marked.sketch.DepictedBy 0 marked.digraph.statements) ∧
    (∀ (first second : Regex) (picture other : Digraph),
      first.digraph = .ok picture → second.digraph = .ok other →
        (picture.statements = other.statements → first = second) ∧
        ((∀ value ∈ first.values ++ second.values, IsLiteral value) →
          picture.source = other.source → first = second)) := by
  refine ⟨?_, fun tree => (tree.statements_depict 0).2, ?_,
    fun marked => (marked.withNotes.statements_depict 0).2, ?_⟩
  · intro regex hknown
    obtain ⟨picture, hpicture⟩ := Regex.exists_digraph_eq_ok hknown
    exact ⟨picture, hpicture, (Regex.depictedBy_digraph hpicture).2.2⟩
  · intro regex hknown
    have hannotate := Regex.annotate_blames regex
    rw [Regex.isKnown_iff.1 hknown] at hannotate
    obtain ⟨annotated, hannotated⟩ := hannotate.exists_eq_ok
    exact ⟨annotated, hannotated, (annotated.root.statements_depict 0).2⟩
  · intro first second picture other hpicture hother
    obtain ⟨hfirst, hpictured, hdepicted⟩ := Regex.depictedBy_digraph hpicture
    obtain ⟨hsecond, hotherPictured, hotherDepicted⟩ := Regex.depictedBy_digraph hother
    have hstatements : picture.statements = other.statements → first = second := by
      intro hequal
      rw [hequal] at hdepicted
      rw [← Regex.regex_sketch hfirst, hdepicted.eq hotherDepicted, Regex.regex_sketch hsecond]
    refine ⟨hstatements, ?_⟩
    intro hliteral hsource
    rw [List.forall_mem_append] at hliteral
    rw [hpictured, hotherPictured] at hsource
    apply hstatements
    apply Dot.source_treeDigraph_inj _ _ hsource
    · exact hdepicted.isPlainStatement (Regex.isPlain_sketch hfirst hliteral.1)
    · exact hotherDepicted.isPlainStatement (Regex.isPlain_sketch hsecond hliteral.2)

/-- The same characters in two groupings have different pictures. -/
theorem tree_pictures_exact_grouping :
    let first : Regex := .concat (.concat (.char "a") (.char "b")) (.star (.char "1"))
    let second : Regex := .concat (.char "a") (.concat (.char "b") (.star (.char "1")))
    ∃ picture other, first.digraph = .ok picture ∧ second.digraph = .ok other ∧
      first.sketch.DepictedBy 0 picture.statements ∧
      second.sketch.DepictedBy 0 other.statements ∧
      picture.statements ≠ other.statements ∧ picture.source ≠ other.source := by
  intro first second
  obtain ⟨hdrawn, -, -, -, hdifferent⟩ := tree_pictures_exact
  obtain ⟨picture, hpicture, hdepicted⟩ := hdrawn first rfl
  obtain ⟨other, hother, hotherDepicted⟩ := hdrawn second rfl
  obtain ⟨hstatements, hsource⟩ := hdifferent first second picture other hpicture hother
  have hne : first ≠ second := by decide
  have hliteral : ∀ value ∈ first.values ++ second.values, IsLiteral value := by
    have hvalues : ∀ value ∈ first.values ++ second.values, value ∈ ["a", "b", "1"] := by decide
    intro value hmem
    have hvalue := hvalues value hmem
    simp only [List.mem_cons, List.not_mem_nil, or_false] at hvalue
    rcases hvalue with rfl | rfl | rfl
    · exact ⟨'a', by decide, rfl⟩
    · exact ⟨'b', by decide, rfl⟩
    · exact ⟨'1', by decide, rfl⟩
  refine ⟨picture, other, hpicture, hother, hdepicted, hotherDepicted, ?_, ?_⟩
  · intro hequal
    exact hne (hstatements hequal)
  · intro hequal
    exact hne (hsource hliteral hequal)

end RegexAutomata

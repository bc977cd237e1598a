import RegexAutomata.Graph.Drawing
import RegexAutomata.Proofs.Nfa.Relocation
import RegexAutomata.Proofs.Position.TwoPasses

/-!
# Trees with unknown nodes

Assembling an automaton, numbering or annotating the characters and drawing a picture all go down a
tree, and all of them stop at an unknown node.  They do other things on the way, and number what
they make in other orders, but each has done with a left part before it looks at the right one.
Therefore they stop at the same node, the leftmost unknown one, and none of them stops in a tree
without unknown nodes.
-/

namespace RegexAutomata

theorem Nfa.ofRegex_blames (regex : Regex) :
    Blames .unknownNode regex.unknownKinds (ofRegex regex) := by
  cases hkinds : regex.unknownKinds with
  | nil =>
    rw [ofRegex_eq (Regex.isKnown_iff.2 hkinds)]
    exact .nobody _
  | cons kind others =>
    obtain ⟨debris, haborts⟩ := Fragment.exists_debris hkinds
    rw [ofRegex, assemble, (haborts.bind _).run_eq]
    exact .first kind others

namespace Regex

theorem annotate_blames (regex : Regex) :
    Blames .unknownNode regex.unknownKinds regex.annotate := by
  rw [annotate_eq]
  exact (marked_blames regex).map

theorem statements_blames (regex : Regex) (number : Nat) :
    Blames .noPicture regex.unknownKinds (regex.statements number) := by
  induction regex generalizing number with
  | char value => exact .nobody _
  | concat left right ihLeft ihRight =>
    exact (ihLeft (number + 1)).bind fun (_, second) => (ihRight second).conclude
  | alternation left right ihLeft ihRight =>
    exact (ihLeft (number + 1)).bind fun (_, second) => (ihRight second).conclude
  | star inner ih => exact (ih (number + 1)).conclude
  | unknown kind mark => exact .first kind []

theorem digraph_blames (regex : Regex) :
    Blames .noPicture regex.unknownKinds regex.digraph :=
  (statements_blames regex 0).conclude

/-- Every tree of known nodes has a picture. -/
theorem exists_digraph_eq_ok {regex : Regex} (hknown : regex.isKnown) :
    ∃ picture, regex.digraph = .ok picture := by
  have hpicture := digraph_blames regex
  rw [isKnown_iff.1 hknown] at hpicture
  exact hpicture.exists_eq_ok

/-- The two constructions have no result for a tree with an unknown node, and only for such a tree.
Both complain in the same words about the leftmost one, and it is also the one that cannot be
drawn.  A tree without unknown nodes has an automaton, a numbering with annotations and a
picture. -/
theorem leftmost_unknown_blamed (regex : Regex) :
    ((∃ kind, Nfa.ofRegex regex = .error (.unknownNode kind)) ↔ regex.unknownKinds ≠ []) ∧
    ((∃ kind, regex.marked = .error (.unknownNode kind)) ↔ regex.unknownKinds ≠ []) ∧
    ((∃ kind, regex.annotate = .error (.unknownNode kind)) ↔ regex.unknownKinds ≠ []) ∧
    (∀ kind others, regex.unknownKinds = kind :: others →
      Nfa.ofRegex regex = .error (.unknownNode kind) ∧
      regex.marked = .error (.unknownNode kind) ∧
      regex.annotate = .error (.unknownNode kind) ∧
      (Failure.unknownNode kind).message = "未知的语法树节点类型: " ++ Text.quoted kind ∧
      regex.digraph = .error (.noPicture kind) ∧
      (Failure.noPicture kind).message = Text.quoted kind) ∧
    (regex.unknownKinds = [] →
      (∃ nfa, Nfa.ofRegex regex = .ok nfa) ∧
      (∃ marked, regex.marked = .ok marked) ∧
      (∃ annotated, regex.annotate = .ok annotated) ∧
      ∃ picture, regex.digraph = .ok picture) := by
  have hnfa := Nfa.ofRegex_blames regex
  have hmarked := marked_blames regex
  have hannotate := annotate_blames regex
  have hpicture := digraph_blames regex
  refine ⟨hnfa.exists_eq_error_iff, hmarked.exists_eq_error_iff, hannotate.exists_eq_error_iff, ?_,
    fun hnone => ?_⟩
  · intro kind others hkinds
    rw [hkinds] at hnfa hmarked hannotate hpicture
    exact ⟨hnfa.eq_error, hmarked.eq_error, hannotate.eq_error, rfl, hpicture.eq_error, rfl⟩
  · rw [hnone] at hnfa hmarked hannotate hpicture
    exact ⟨hnfa.exists_eq_ok, hmarked.exists_eq_ok, hannotate.exists_eq_ok, hpicture.exists_eq_ok⟩

/-- `HOLE` stands deeper in the tree than `EMPTY`, and is drawn before it. -/
theorem leftmost_unknown_blamed_twoUnknown :
    let tree := alternation (star (concat (char "a") (unknown "HOLE" 0))) (unknown "EMPTY" 1)
    tree.unknownKinds = ["HOLE", "EMPTY"] ∧
    Nfa.ofRegex tree = .error (.unknownNode "HOLE") ∧
    tree.marked = .error (.unknownNode "HOLE") ∧
    tree.annotate = .error (.unknownNode "HOLE") ∧
    tree.digraph = .error (.noPicture "HOLE") := by
  intro tree
  obtain ⟨-, -, -, hblamed, -⟩ := leftmost_unknown_blamed tree
  obtain ⟨hnfa, hmarked, hannotate, -, hpicture, -⟩ := hblamed "HOLE" ["EMPTY"] rfl
  exact ⟨rfl, hnfa, hmarked, hannotate, hpicture⟩

end Regex
end RegexAutomata

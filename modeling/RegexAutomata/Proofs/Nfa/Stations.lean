import RegexAutomata.Proofs.Nfa.FragmentLanguage
import RegexAutomata.Proofs.Position.Marking

/-!
# Where the characters of a tree wait

In the fragment of a tree each character has a state of its own, its station, from which its symbol
is read.  All other edges read nothing, and they depend on the shape of the tree alone.  So the
characters may be renamed: a trail stays a trail if each symbol is replaced by the new name of the
character that it was read from.
-/

namespace RegexAutomata

namespace Trail

variable {α : Type} {edge : α → String → α → Prop} {place final : α} {left right word : List String}

/-- A trail that spells two words in a row passes a place between them. -/
theorem exists_of_append (htrail : Trail edge place (left ++ right) final) :
    ∃ middle, Trail edge place left middle ∧ Trail edge middle right final := by
  generalize hword : left ++ right = word at htrail
  induction htrail generalizing left with
  | nil =>
    obtain ⟨rfl, rfl⟩ := List.append_eq_nil_iff.1 hword
    exact ⟨_, .nil _, .nil _⟩
  | silent hedge _ ih =>
    obtain ⟨middle, hleft, hright⟩ := ih hword
    exact ⟨middle, .silent hedge hleft, hright⟩
  | read hsymbol hedge htrail ih =>
    cases left with
    | nil =>
      rw [List.nil_append] at hword
      exact ⟨_, .nil _, hword ▸ .read hsymbol hedge htrail⟩
    | cons head rest =>
      obtain ⟨rfl, hrest⟩ := List.cons.inj hword
      obtain ⟨middle, hleft, hright⟩ := ih hrest
      exact ⟨middle, .read hsymbol hedge hleft, hright⟩

/-- A trail that spells a word reads its first symbol somewhere. -/
theorem exists_of_cons {symbol : String} (htrail : Trail edge place (symbol :: word) final) :
    ∃ before after, Trail edge place [] before ∧ symbol ≠ epsilon ∧ edge before symbol after ∧
      Trail edge after word final := by
  generalize hword : symbol :: word = whole at htrail
  induction htrail with
  | nil => cases hword
  | silent hedge _ ih =>
    obtain ⟨before, after, hbefore, hsymbol, hread, hrest⟩ := ih hword
    exact ⟨before, after, .silent hedge hbefore, hsymbol, hread, hrest⟩
  | read hsymbol hedge htrail =>
    cases hword
    exact ⟨_, _, .nil _, hsymbol, hedge, htrail⟩

end Trail

namespace MarkedRegex

/-- The tree without the positions, each character under a new name. -/
def renamed (name : Position → String → String) : MarkedRegex → Regex
  | leaf value position => .char (name position value)
  | concat left right => .concat (left.renamed name) (right.renamed name)
  | alternation left right => .alternation (left.renamed name) (right.renamed name)
  | star inner => .star (inner.renamed name)

theorem renamed_value (marked : MarkedRegex) :
    marked.renamed (fun _ value => value) = marked.unmarked := by
  induction marked with
  | leaf value position => rfl
  | concat left right ihLeft ihRight => rw [renamed, unmarked, ihLeft, ihRight]
  | alternation left right ihLeft ihRight => rw [renamed, unmarked, ihLeft, ihRight]
  | star inner ih => rw [renamed, unmarked, ih]

theorem isKnown_renamed (name : Position → String → String) (marked : MarkedRegex) :
    (marked.renamed name).isKnown := by
  induction marked with
  | leaf value position => rfl
  | concat left right ihLeft ihRight => rw [renamed, Regex.isKnown, ihLeft, ihRight]; rfl
  | alternation left right ihLeft ihRight => rw [renamed, Regex.isKnown, ihLeft, ihRight]; rfl
  | star inner ih => rw [renamed, Regex.isKnown, ih]

theorem language_renamed (name : Position → String → String) (marked : MarkedRegex) :
    (marked.renamed name).language = marked.language name := by
  induction marked with
  | leaf value position => rfl
  | concat left right ihLeft ihRight => rw [renamed, Regex.language, language, ihLeft, ihRight]
  | alternation left right ihLeft ihRight => rw [renamed, Regex.language, language, ihLeft, ihRight]
  | star inner ih => rw [renamed, Regex.language, language, ih]

theorem values_renamed (name : Position → String → String) (marked : MarkedRegex) :
    (marked.renamed name).values = marked.leaves.map fun leaf => name leaf.1 leaf.2 := by
  induction marked with
  | leaf value position => rfl
  | concat left right ihLeft ihRight =>
    rw [renamed, Regex.values, leaves, List.map_append, ihLeft, ihRight]
  | alternation left right ihLeft ihRight =>
    rw [renamed, Regex.values, leaves, List.map_append, ihLeft, ihRight]
  | star inner ih => rw [renamed, Regex.values, leaves, ih]

variable {marked : MarkedRegex}

theorem isKnown_unmarked (marked : MarkedRegex) : marked.unmarked.isKnown :=
  marked.renamed_value ▸ isKnown_renamed _ marked

theorem value_ne_epsilon (hvalues : epsilon ∉ marked.unmarked.values) :
    ∀ leaf ∈ marked.leaves, leaf.2 ≠ epsilon := by
  rintro leaf hleaf hequal
  apply hvalues
  rw [values_unmarked]
  exact List.mem_map.2 ⟨leaf, hleaf, hequal⟩

end MarkedRegex

namespace Fragment

open MarkedRegex

/-- A character and the state from which it is read. -/
structure Station where
  position : Position
  value : String
  place : Int

def stations (base : Nat) : MarkedRegex → List Station
  | .leaf value position => [⟨position, value, base⟩]
  | .concat left right => stations base left ++ stations (base + size left.unmarked) right
  | .alternation left right =>
    stations (base + 2) left ++ stations (base + 2 + size left.unmarked) right
  | .star inner => stations (base + 2) inner

section Renaming

variable {name : Position → String → String} {marked left right : MarkedRegex} {base : Nat}
  {source target : Int} {symbol : String}

theorem size_renamed (name : Position → String → String) (marked : MarkedRegex) :
    size (marked.renamed name) = size marked.unmarked := by
  induction marked with
  | leaf value position => rfl
  | concat left right ihLeft ihRight => rw [renamed, unmarked, size, size, ihLeft, ihRight]
  | alternation left right ihLeft ihRight => rw [renamed, unmarked, size, size, ihLeft, ihRight]
  | star inner ih => rw [renamed, unmarked, size, size, ih]

theorem exit_renamed (name : Position → String → String) (marked : MarkedRegex) :
    exit (marked.renamed name) = exit marked.unmarked := by
  induction marked with
  | leaf value position => rfl
  | concat left right _ ihRight => rw [renamed, unmarked, exit, exit, size_renamed, ihRight]
  | alternation left right _ _ => rfl
  | star inner _ => rfl

theorem map_stations (base : Nat) (marked : MarkedRegex) :
    (stations base marked).map (fun station => (station.position, station.value)) =
      marked.leaves := by
  induction marked generalizing base with
  | leaf value position => rfl
  | concat left right ihLeft ihRight => rw [stations, leaves, List.map_append, ihLeft, ihRight]
  | alternation left right ihLeft ihRight => rw [stations, leaves, List.map_append, ihLeft, ihRight]
  | star inner ih => exact ih _

/-- An edge that reads the name of a character at its station and leads to the next state. -/
def Reading (base : Nat) (marked : MarkedRegex) (name : Position → String → String) (source : Int)
    (symbol : String) (target : Int) : Prop :=
  ∃ station ∈ stations base marked, source = station.place ∧
    symbol = name station.position station.value ∧ target = station.place + 1

theorem reading_concat :
    Reading base (.concat left right) name source symbol target ↔
      Reading base left name source symbol target ∨
        Reading (base + size left.unmarked) right name source symbol target := by
  simp only [Reading, stations, List.mem_append, or_and_right, exists_or]

theorem reading_alternation :
    Reading base (.alternation left right) name source symbol target ↔
      Reading (base + 2) left name source symbol target ∨
        Reading (base + 2 + size left.unmarked) right name source symbol target := by
  simp only [Reading, stations, List.mem_append, or_and_right, exists_or]

/-- An edge reads the name of a character at its station and leads to the next state, or it reads
nothing and is there whatever the characters are called. -/
theorem edge_renamed (other : Position → String → String)
    (hother : ∀ leaf ∈ marked.leaves, other leaf.1 leaf.2 ≠ epsilon) :
    Edge base (marked.renamed name) source symbol target ↔
      Reading base marked name source symbol target ∨
        (symbol = epsilon ∧ Edge base (marked.renamed other) source epsilon target) := by
  induction marked generalizing base with
  | leaf value position =>
    have hsilent : other position value ≠ epsilon := hother _ List.mem_cons_self
    simp only [renamed, edge_char, Reading, stations, List.mem_singleton, exists_eq_left,
      Ne.symm hsilent, Int.natCast_add, Int.cast_ofNat_Int, false_and, and_false, or_false]
  | concat left right ihLeft ihRight =>
    rw [leaves, List.forall_mem_append] at hother
    rw [renamed, renamed, edge_concat (isKnown_renamed _ left),
      edge_concat (isKnown_renamed _ left), ihLeft hother.1, ihRight hother.2, reading_concat]
    simp only [size_renamed, exit_renamed]
    grind
  | alternation left right ihLeft ihRight =>
    rw [leaves, List.forall_mem_append] at hother
    rw [renamed, renamed, edge_alternation (isKnown_renamed _ left) (isKnown_renamed _ right),
      edge_alternation (isKnown_renamed _ left) (isKnown_renamed _ right), ihLeft hother.1,
      ihRight hother.2, reading_alternation]
    simp only [size_renamed, exit_renamed]
    grind
  | star inner ih =>
    rw [renamed, renamed, edge_star (isKnown_renamed _ inner), edge_star (isKnown_renamed _ inner),
      ih hother]
    simp only [exit_renamed]
    grind [Reading, stations]

theorem mem_leaves_of_mem_stations {station : Station} (hstation : station ∈ stations base marked) :
    (station.position, station.value) ∈ marked.leaves := by
  rw [← map_stations base marked]
  exact List.mem_map_of_mem hstation

/-- A trail stays a trail if each symbol is replaced by the new name of its character. -/
theorem trail_renamed (other : Position → String → String)
    (hname : ∀ leaf ∈ marked.leaves, name leaf.1 leaf.2 ≠ epsilon)
    (hother : ∀ leaf ∈ marked.leaves, other leaf.1 leaf.2 ≠ epsilon) {word : List String}
    (htrail : Trail (Edge base (marked.renamed name)) source word target) :
    ∃ row, row ⊆ marked.leaves ∧ row.map (fun leaf => name leaf.1 leaf.2) = word ∧
      Trail (Edge base (marked.renamed other)) source
        (row.map fun leaf => other leaf.1 leaf.2) target := by
  induction htrail with
  | nil => exact ⟨[], List.nil_subset _, rfl, .nil _⟩
  | silent hedge _ ih =>
    obtain ⟨row, hrow, hword, htrail⟩ := ih
    rcases (edge_renamed other hother).1 hedge with
      ⟨station, hstation, -, hsymbol, -⟩ | ⟨-, hsilent⟩
    · exact absurd hsymbol.symm (hname _ (mem_leaves_of_mem_stations hstation))
    · exact ⟨row, hrow, hword, .silent hsilent htrail⟩
  | read hsymbol hedge _ ih =>
    obtain ⟨row, hrow, rfl, htrail⟩ := ih
    rcases (edge_renamed other hother).1 hedge with
      ⟨station, hstation, rfl, rfl, rfl⟩ | ⟨hsilent, -⟩
    · have hleaf := mem_leaves_of_mem_stations hstation
      have hread : Edge base (marked.renamed other) station.place
          (other station.position station.value) (station.place + 1) :=
        (edge_renamed other hother).2 (Or.inl ⟨station, hstation, rfl, rfl, rfl⟩)
      exact ⟨(station.position, station.value) :: row, List.cons_subset.2 ⟨hleaf, hrow⟩, rfl,
        .read (hother _ hleaf) hread htrail⟩
    · exact absurd hsilent hsymbol

end Renaming

section Exit

theorem within_of_trail {regex : Regex} (hknown : regex.isKnown) {base : Nat} {source target : Int}
    {word : List String} (hsource : Within base regex source)
    (htrail : Trail (Edge base regex) source word target) : Within base regex target := by
  induction htrail with
  | nil => exact hsource
  | silent hedge _ ih => exact ih (within_of_edge hknown hedge).2
  | read _ hedge _ ih => exact ih (within_of_edge hknown hedge).2

/-- From every state of the fragment some trail leads to the one at which it is left. -/
def Drains (base : Nat) (regex : Regex) : Prop :=
  ∀ id, Within base regex id → ∃ word, Trail (Edge base regex) id word (base + exit regex : Nat)

/-- What leads on from where a part is left is led to from everywhere in the part. -/
theorem Part.exists_trail {edge : Int → String → Int → Prop} {base : Nat} {regex : Regex}
    {exits : Int → Prop} (hpart : Part edge base regex exits) (hdrains : Drains base regex)
    {next final : Int} {rest : List String} (hleave : edge (base + exit regex : Nat) epsilon next)
    (hrest : Trail edge next rest final) (id : Int) (hid : Within base regex id) :
    ∃ word, Trail edge id word final := by
  obtain ⟨word, htrail⟩ := hdrains id hid
  exact ⟨word ++ rest, (htrail.mono hpart.own).append (.silent hleave hrest)⟩

variable {base : Nat} {left right inner : Regex}

theorem drains_char (value : String) : Drains base (.char value) := by
  intro id hid
  rw [Within, size] at hid
  by_cases hend : id = (base + 1 : Nat)
  · exact ⟨[], hend ▸ .nil _⟩
  · have hstart : Edge base (.char value) id value (base + 1 : Nat) :=
      edge_char.2 ⟨by omega, rfl, rfl⟩
    by_cases hvalue : value = epsilon
    · exact ⟨[], .silent (hvalue ▸ hstart) (.nil _)⟩
    · exact ⟨[value], .read hvalue hstart (.nil _)⟩

theorem drains_concat (hleft : left.isKnown) (hright : right.isKnown)
    (hdrainsLeft : Drains base left) (hdrainsRight : Drains (base + size left) right) :
    Drains base (.concat left right) := by
  intro id hid
  have hfirst := @part_concat_left base left right hleft hright
  have hsecond := @part_concat_right base left right hleft hright
  have hlink : Edge base (.concat left right) (base + exit left : Nat) epsilon
      (base + size left : Nat) := (edge_concat hleft).2 (Or.inl ⟨rfl, rfl, rfl⟩)
  rw [exit, ← Nat.add_assoc]
  obtain ⟨second, hrest⟩ := hdrainsRight _ hsecond.within_start
  by_cases hwithin : Within base left id
  · exact hfirst.exists_trail hdrainsLeft hlink (hrest.mono hsecond.own) id hwithin
  · have hlast : Within (base + size left) right id := by
      simp only [Within, size] at hid hwithin ⊢
      omega
    obtain ⟨word, htrail⟩ := hdrainsRight id hlast
    exact ⟨word, htrail.mono hsecond.own⟩

theorem drains_alternation (hleft : left.isKnown) (hright : right.isKnown)
    (hdrainsLeft : Drains (base + 2) left)
    (hdrainsRight : Drains (base + 2 + size left) right) :
    Drains base (.alternation left right) := by
  intro id hid
  have hfirst := @part_alternation_left base left right hleft hright
  have hsecond := @part_alternation_right base left right hleft hright
  have hleaveLeft : Edge base (.alternation left right) (base + 2 + exit left : Nat) epsilon
      (base + 1 : Nat) :=
    (edge_alternation hleft hright).2 (Or.inr (Or.inl ⟨rfl, rfl, rfl⟩))
  have hleaveRight : Edge base (.alternation left right)
      (base + 2 + size left + exit right : Nat) epsilon (base + 1 : Nat) :=
    (edge_alternation hleft hright).2 (Or.inr (Or.inr (Or.inr (Or.inl ⟨rfl, rfl, rfl⟩))))
  have hdone := hfirst.exists_trail hdrainsLeft hleaveLeft (.nil _)
  rw [exit]
  by_cases hend : id = (base + 1 : Nat)
  · exact ⟨[], hend ▸ .nil _⟩
  · by_cases hstart : id = base
    · obtain ⟨word, htrail⟩ := hdone _ hfirst.within_start
      have hentry : Edge base (.alternation left right) id epsilon (base + 2 : Nat) :=
        hstart ▸ (edge_alternation_start hleft hright).2 ⟨rfl, Or.inl rfl⟩
      exact ⟨word, .silent hentry htrail⟩
    · by_cases hwithin : Within (base + 2) left id
      · exact hdone id hwithin
      · apply hsecond.exists_trail hdrainsRight hleaveRight (.nil _)
        simp only [Within, size] at hid hwithin ⊢
        omega

theorem drains_star (hinner : inner.isKnown) (hdrains : Drains (base + 2) inner) :
    Drains base (.star inner) := by
  intro id hid
  have hpart := @part_star base inner hinner
  have hleave : Edge base (.star inner) (base + 2 + exit inner : Nat) epsilon (base + 1 : Nat) :=
    (edge_star hinner).2 (Or.inr (Or.inl ⟨rfl, rfl, Or.inr rfl⟩))
  rw [exit]
  by_cases hend : id = (base + 1 : Nat)
  · exact ⟨[], hend ▸ .nil _⟩
  · by_cases hstart : id = base
    · have hskip : Edge base (.star inner) id epsilon (base + 1 : Nat) :=
        hstart ▸ (edge_star_start hinner).2 ⟨rfl, Or.inr rfl⟩
      exact ⟨[], .silent hskip (.nil _)⟩
    · apply hpart.exists_trail hdrains hleave (.nil _)
      simp only [Within, size] at hid ⊢
      omega

theorem drains {regex : Regex} (hknown : regex.isKnown) (base : Nat) : Drains base regex := by
  induction regex generalizing base with
  | char value => exact drains_char value
  | concat left right ihLeft ihRight =>
    simp only [Regex.isKnown, Bool.and_eq_true] at hknown
    exact drains_concat hknown.1 hknown.2 (ihLeft hknown.1 _) (ihRight hknown.2 _)
  | alternation left right ihLeft ihRight =>
    simp only [Regex.isKnown, Bool.and_eq_true] at hknown
    exact drains_alternation hknown.1 hknown.2 (ihLeft hknown.1 _) (ihRight hknown.2 _)
  | star inner ih => exact drains_star hknown (ih hknown _)
  | unknown kind mark => exact absurd hknown Bool.false_ne_true

end Exit

section Naming

variable {name : Position → String} {marked : MarkedRegex} {base : Nat} {station other : Station}

/-- In a tree whose positions are distinct a character is told by its position. -/
theorem station_injective (hdistinct : marked.Distinct) (hstation : station ∈ stations base marked)
    (hother : other ∈ stations base marked) (hsame : station.position = other.position) :
    station = other := by
  have hpositions : (stations base marked).map Station.position = marked.positions := by
    rw [positions, ← map_stations base marked, List.map_map]
    rfl
  rw [Distinct, ← hpositions] at hdistinct
  exact List.inj_on_of_nodup_map hdistinct hstation hother hsame

/-- A row of characters is told by their names. -/
theorem row_injective (hdistinct : marked.Distinct) (hname : Function.Injective name)
    {row others : List (Position × String)} (hrow : row ⊆ marked.leaves)
    (hothers : others ⊆ marked.leaves)
    (hsame : row.map (fun leaf => name leaf.1) = others.map fun leaf => name leaf.1) :
    row = others := by
  induction row generalizing others with
  | nil => exact (List.map_eq_nil_iff.1 hsame.symm).symm
  | cons leaf row ih =>
    obtain ⟨other, rest, rfl, hfirst, hrest⟩ := List.map_eq_cons_iff.1 hsame.symm
    rw [List.cons_subset] at hrow hothers
    rw [ih hrow.2 hothers.2 hrest.symm,
      List.inj_on_of_nodup_map hdistinct hrow.1 hothers.1 (hname hfirst.symm)]

/-- A trail to a station reads what a word may have before the character of the station. -/
theorem trail_station_iff (hdistinct : marked.Distinct) (hvalues : epsilon ∉ marked.unmarked.values)
    (hname : Function.Injective name) (hsilent : ∀ position, name position ≠ epsilon)
    (hstation : station ∈ stations base marked) {word : List String} :
    Trail (Edge base marked.unmarked) base word station.place ↔
      ∃ row, row ⊆ marked.leaves ∧ row.map Prod.snd = word ∧ ∃ rest,
        row.map (fun leaf => name leaf.1) ++ name station.position :: rest ∈
          marked.language fun position _ => name position := by
  have hnames : ∀ leaf ∈ marked.leaves, name leaf.1 ≠ epsilon := fun leaf _ => hsilent leaf.1
  have hown := value_ne_epsilon hvalues
  have hknown := isKnown_renamed (fun position _ => name position) marked
  have hspells := spells_language hknown (by
    rw [values_renamed]
    rintro hvalue
    obtain ⟨leaf, hleaf, hequal⟩ := List.mem_map.1 hvalue
    exact hnames leaf hleaf hequal) base
  rw [Spells, language_renamed] at hspells
  rw [← renamed_value]
  constructor
  · intro htrail
    obtain ⟨row, hrow, hword, hrenamed⟩ :=
      trail_renamed (fun position _ => name position) hown hnames htrail
    have hread : Edge base (marked.renamed fun position _ => name position) station.place
        (name station.position) (station.place + 1) :=
      (edge_renamed (fun _ value => value) hown).2 (Or.inl ⟨station, hstation, rfl, rfl, rfl⟩)
    obtain ⟨rest, hrest⟩ := drains hknown base _ (within_of_edge hknown hread).2
    refine ⟨row, hrow, hword, rest, (hspells _).1 (hrenamed.append ?_)⟩
    exact .read (hsilent _) hread hrest
  · rintro ⟨row, hrow, rfl, rest, hword⟩
    obtain ⟨middle, hfront, hback⟩ := ((hspells _).2 hword).exists_of_append
    obtain ⟨before, after, hbefore, hsymbol, hread, -⟩ := hback.exists_of_cons
    obtain ⟨own, hmem, hplace, hsame, -⟩ :=
      ((edge_renamed (fun _ value => value) hown).1 hread).resolve_right
        fun hnone => hsymbol hnone.1
    obtain rfl := station_injective hdistinct hstation hmem (hname hsame)
    obtain rfl := hplace
    have htrail := hfront.append hbefore
    rw [List.append_nil] at htrail
    obtain ⟨others, hothers, hsame, hrenamed⟩ :=
      trail_renamed (fun _ value => value) hnames hown htrail
    rwa [row_injective hdistinct hname hothers hrow hsame] at hrenamed

end Naming

end Fragment
end RegexAutomata

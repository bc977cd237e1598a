import RegexAutomata.Proofs.Regex.Diagnosis

/-!
# Tokens made by hand

Any row of tokens may be brought into post-order, with texts and positions as they come, and with
equal tokens in it.  What is done depends on the roles alone.  So each token may send a stand-in,
a single character of the same role at the index of the token, and the stand-ins are the scanned
tokens of a text.  All of them are different, they are put out like the tokens they stand for, and
what is known about the parentheses of texts says which rows have a post-order.
-/

namespace RegexAutomata.Token

open Regex

/-- A character of the same role. -/
def sign (token : Token) : Char :=
  match token.role with
  | .opening => '('
  | .closing => ')'
  | .operator .alternation => '|'
  | .operator .concat => '.'
  | .operator .star => '*'
  | .operand => 'a'

def standIn (index : Nat) (token : Token) : Token :=
  { text := token.sign.toString, position := index }

/-- The stand-ins of a row of tokens that starts at an index. -/
def standIns (start : Nat) : List Token → List Token
  | [] => []
  | token :: rest => standIn start token :: standIns (start + 1) rest

def place (token : Token) : Nat :=
  token.position.toNat

def principal (tokens : List Token) (token : Token) : Token :=
  tokens[token.place]?.getD token

variable {token : Token} {tokens waiting : List Token} {start : Nat}

section Sign

theorem sign_eq_opening_iff : token.sign = '(' ↔ token.role = .opening := by
  rw [sign]
  split <;> simp_all

theorem sign_eq_closing_iff : token.sign = ')' ↔ token.role = .closing := by
  rw [sign]
  split <;> simp_all

theorem isAdmitted_sign (token : Token) : isAdmitted token.sign := by
  rw [sign]
  split <;> rfl

theorem role_standIn (index : Nat) (token : Token) : (standIn index token).role = token.role := by
  rw [standIn, sign]
  split <;> simp_all [role, concatSign]

theorem sign_standIn (index : Nat) (token : Token) : (standIn index token).sign = token.sign := by
  rw [sign, role_standIn, sign]

end Sign

section StandIns

theorem getElem?_standIns (start : Nat) (tokens : List Token) (index : Nat) :
    (standIns start tokens)[index]? = tokens[index]?.map (standIn (start + index)) := by
  induction tokens generalizing start index with
  | nil => rfl
  | cons token rest ih =>
    cases index with
    | zero => rfl
    | succ index =>
      rw [standIns, List.getElem?_cons_succ, List.getElem?_cons_succ, ih, Nat.add_right_comm,
        Nat.add_assoc]

theorem map_sign_standIns (start : Nat) (tokens : List Token) :
    (standIns start tokens).map sign = tokens.map sign := by
  induction tokens generalizing start with
  | nil => rfl
  | cons token rest ih => rw [standIns, List.map_cons, List.map_cons, sign_standIn, ih]

/-- The stand-ins are the tokens of a text. -/
theorem scanFrom_map_sign (start : Nat) (tokens : List Token) :
    scanFrom start (tokens.map sign) = .ok (standIns start tokens) := by
  induction tokens generalizing start with
  | nil => rfl
  | cons token rest ih =>
    rw [List.map_cons, scanFrom, if_pos (isAdmitted_sign token), ih]
    rfl

theorem place_standIn (index : Nat) (token : Token) : (standIn index token).place = index :=
  Int.toNat_natCast index

theorem exists_of_mem_standIns {other : Token} (hother : other ∈ standIns 0 tokens) :
    ∃ token, tokens[other.place]? = some token ∧ other = standIn other.place token := by
  obtain ⟨index, hindex⟩ := List.mem_iff_getElem?.1 hother
  rw [getElem?_standIns, Option.map_eq_some_iff, Nat.zero_add] at hindex
  obtain ⟨token, htoken, rfl⟩ := hindex
  rw [place_standIn]
  exact ⟨token, htoken, rfl⟩

/-- Each stand-in stands for a token of the row. -/
theorem getElem?_place {other : Token} (hother : other ∈ standIns 0 tokens) :
    tokens[other.place]? = some (principal tokens other) := by
  obtain ⟨token, htoken, -⟩ := exists_of_mem_standIns hother
  rw [principal, htoken, Option.getD_some]

theorem role_principal {other : Token} (hother : other ∈ standIns 0 tokens) :
    (principal tokens other).role = other.role := by
  obtain ⟨token, htoken, hequal⟩ := exists_of_mem_standIns hother
  rw [principal, htoken, Option.getD_some, hequal, role_standIn]

theorem map_principal_standIns (tokens : List Token) :
    (standIns 0 tokens).map (principal tokens) = tokens := by
  apply List.ext_getElem?
  intro index
  rw [List.getElem?_map, getElem?_standIns, Option.map_map]
  cases htoken : tokens[index]? with
  | none => rfl
  | some token => simp [principal, place_standIn, htoken]

end StandIns

section Likewise

/-- Two rows of tokens, the second made from the first, are put out alike, or the same fault is
found at a token and at what was made from it. -/
inductive Likewise (change : Token → Token) (tokens : List Token) :
    Except SyntaxError (List Token) → Except SyntaxError (List Token) → Prop where
  | ordered (ordered : List Token) : Likewise change tokens (.ok ordered) (.ok (ordered.map change))
  | fault (fault : SyntaxFault) {token : Token} (htoken : token ∈ tokens) :
      Likewise change tokens (.error ⟨fault, token.position⟩)
        (.error ⟨fault, (change token).position⟩)

variable {change : Token → Token} {source : List Token}

theorem Likewise.append {visit revisit : Except SyntaxError (List Token)}
    (hvisit : Likewise change source visit revisit) (out : List Token) :
    Likewise change source (do let rest ← visit; return out ++ rest)
      (do let rest ← revisit; return out.map change ++ rest) := by
  cases hvisit with
  | ordered ordered =>
    have hordered : Likewise change source (.ok (out ++ ordered))
        (.ok ((out ++ ordered).map change)) := .ordered (out ++ ordered)
    rw [List.map_append] at hordered
    exact hordered
  | fault fault htoken => exact .fault fault htoken

theorem takeWhile_map_of_forall (test : Token → Bool)
    (htest : ∀ token ∈ tokens, test (change token) = test token) :
    (tokens.map change).takeWhile test = (tokens.takeWhile test).map change ∧
      (tokens.map change).dropWhile test = (tokens.dropWhile test).map change := by
  induction tokens with
  | nil => exact ⟨rfl, rfl⟩
  | cons token rest ih =>
    rw [List.forall_mem_cons] at htest
    obtain ⟨htake, hdrop⟩ := ih htest.2
    rw [List.map_cons, List.takeWhile_cons, List.takeWhile_cons, List.dropWhile_cons,
      List.dropWhile_cons, htest.1, htake, hdrop]
    split <;> exact ⟨rfl, rfl⟩

variable (hrole : ∀ token ∈ source, (change token).role = token.role)

include hrole

theorem likewise_release (hwaiting : ∀ token ∈ waiting, token ∈ source) :
    Likewise change source (release waiting) (release (waiting.map change)) := by
  induction waiting with
  | nil => exact .ordered []
  | cons token rest ih =>
    rw [List.forall_mem_cons] at hwaiting
    have hopening : (change token).isOpening = token.isOpening := by
      rw [isOpening, isOpening, hrole token hwaiting.1]
    rw [List.map_cons, release, release, hopening]
    split
    · exact .fault .unmatchedOpen hwaiting.1
    · exact (ih hwaiting.2).append [token]

/-- What is done with tokens depends on their roles alone. -/
theorem likewise_postOrderFrom (hwaiting : ∀ token ∈ waiting, token ∈ source)
    (htokens : ∀ token ∈ tokens, token ∈ source) :
    Likewise change source (postOrderFrom waiting tokens)
      (postOrderFrom (waiting.map change) (tokens.map change)) := by
  induction tokens generalizing waiting with
  | nil => exact likewise_release hrole hwaiting
  | cons token rest ih =>
    rw [List.forall_mem_cons] at htokens
    have hsame := hrole token htokens.1
    have htest : ∀ other ∈ waiting, ∀ operator,
        (change other).isOpening = other.isOpening ∧
          (change other).yieldsTo operator = other.yieldsTo operator := by
      intro other hother operator
      rw [isOpening, isOpening, yieldsTo, yieldsTo, hrole other (hwaiting other hother)]
      exact ⟨rfl, rfl⟩
    rw [List.map_cons, postOrderFrom, postOrderFrom, hsame]
    cases htoken : token.role with
    | opening => exact ih (List.forall_mem_cons.2 ⟨htokens.1, hwaiting⟩) htokens.2
    | closing =>
      obtain ⟨htake, hdrop⟩ := takeWhile_map_of_forall (fun other => !other.isOpening)
        fun other hother => congrArg not (htest other hother .star).1
      simp only [htake, hdrop]
      cases hbelow : waiting.dropWhile fun other => !other.isOpening with
      | nil => exact .fault .unmatchedClose htokens.1
      | cons opening below =>
        refine (ih (fun other hother => hwaiting other ?_) htokens.2).append _
        apply (List.dropWhile_sublist fun other => !other.isOpening).subset
        rw [hbelow]
        exact List.mem_cons_of_mem _ hother
    | operator operator =>
      obtain ⟨htake, hdrop⟩ := takeWhile_map_of_forall (yieldsTo operator)
        fun other hother => (htest other hother operator).2
      simp only [htake, hdrop]
      have hkept : ∀ other ∈ token :: waiting.dropWhile (yieldsTo operator), other ∈ source := by
        refine List.forall_mem_cons.2 ⟨htokens.1, fun other hother => hwaiting other ?_⟩
        exact (List.dropWhile_sublist (yieldsTo operator)).subset hother
      exact (ih hkept htokens.2).append _
    | operand => exact (ih hwaiting htokens.2).append [token]

end Likewise

/-- Tokens are put out like their stand-ins. -/
theorem likewise_postOrder (tokens : List Token) :
    Likewise (principal tokens) (standIns 0 tokens) (postOrder (standIns 0 tokens))
      (postOrder tokens) := by
  have hlikewise := likewise_postOrderFrom (fun _ => role_principal) (List.forall_mem_nil _)
    fun (other : Token) (hother : other ∈ standIns 0 tokens) => hother
  rwa [map_principal_standIns] at hlikewise

/-- The parentheses among the signs decide what becomes of the stand-ins. -/
theorem verdict_standIns (tokens : List Token) :
    Verdict (tokens.map sign) (postOrder (standIns 0 tokens)) := by
  have hscan := scanFrom_map_sign 0 tokens
  obtain ⟨hadmitted, htexts, hwritten⟩ := scanFrom_eq_ok hscan
  have hscanned : scan (String.ofList (tokens.map sign)) = .ok (standIns 0 tokens) := by
    rw [scan, String.toList_ofList, hscan]
  have hholds : Holds [] [] := ⟨[], .outside .nil, rfl⟩
  have hplaced : Placed ([] : List Char).length (standIns 0 tokens) := placed_scanFrom hscan
  have hverdict := hholds.verdict_postOrderFrom (scan_eq_ok hscanned).2.2 hplaced
  rwa [List.nil_append, written_scanned htexts hwritten] at hverdict

end RegexAutomata.Token

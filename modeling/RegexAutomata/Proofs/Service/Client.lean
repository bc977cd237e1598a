import Mathlib.Data.List.TakeWhile
import RegexAutomata.Proofs.Text.Decimal
import RegexAutomata.Service.Client

/-!
# The first public address

A forwarding list is the text of hops with commas between them.  A hop is an address of four
octets, with blanks around it or without, or it is blank.  Reading the list gives back the
addresses, and of these the first counts that none of the written beginnings stands for.

The beginnings stand for whole networks, so the question whether an address is private is one about
octets.  Two of them cover their network.  The third covers only the first sixteenth of its one:
the addresses from 172.17.0.0 to 172.31.255.255 are private and are not recognized.
-/

namespace RegexAutomata

structure Ipv4 where
  first : Fin 256
  second : Fin 256
  third : Fin 256
  fourth : Fin 256
  deriving DecidableEq, Repr

namespace Ipv4

def dotted (address : Ipv4) : String :=
  toString address.first.val ++ "." ++ toString address.second.val ++ "." ++
    toString address.third.val ++ "." ++ toString address.fourth.val

/-- The octets as the digits of one number. -/
def number (address : Ipv4) : Nat :=
  ((address.first.val * 256 + address.second.val) * 256 + address.third.val) * 256 +
    address.fourth.val

theorem toList_dotted (address : Ipv4) :
    address.dotted.toList = Nat.toDigits 10 address.first ++ '.' ::
      (Nat.toDigits 10 address.second ++ '.' :: (Nat.toDigits 10 address.third ++ '.' ::
        Nat.toDigits 10 address.fourth)) := by
  simp [dotted]

theorem dot_not_mem_toDigits (number : Nat) : '.' ∉ Nat.toDigits 10 number :=
  Text.not_mem_toDigits rfl

/-- Different addresses are written differently. -/
theorem dotted_injective : Function.Injective dotted := by
  intro left right hsame
  have hfirst := congrArg String.toList hsame
  rw [toList_dotted, toList_dotted] at hfirst
  obtain ⟨hfirst, hsecond⟩ :=
    Text.append_cons_inj (dot_not_mem_toDigits _) (dot_not_mem_toDigits _) hfirst
  obtain ⟨hsecond, hthird⟩ :=
    Text.append_cons_inj (dot_not_mem_toDigits _) (dot_not_mem_toDigits _) hsecond
  obtain ⟨hthird, hfourth⟩ :=
    Text.append_cons_inj (dot_not_mem_toDigits _) (dot_not_mem_toDigits _) hthird
  rw [Text.toDigits_inj, ← Fin.ext_iff] at hfirst hsecond hthird hfourth
  cases left
  cases right
  simp_all

end Ipv4

/-- The addresses whose leading bits are those of a base. -/
structure Network where
  base : Ipv4
  bits : Nat

namespace Network

def contains (network : Network) (address : Ipv4) : Bool :=
  address.number >>> (32 - network.bits) == network.base.number >>> (32 - network.bits)

def anyContains (networks : List Network) (address : Ipv4) : Bool :=
  networks.any fun network => network.contains address

/-- The networks set aside for private use. -/
def privateUse : List Network :=
  [⟨⟨10, 0, 0, 0⟩, 8⟩, ⟨⟨172, 16, 0, 0⟩, 12⟩, ⟨⟨192, 168, 0, 0⟩, 16⟩]

/-- The networks that the beginnings stand for. -/
def passedOver : List Network :=
  [⟨⟨10, 0, 0, 0⟩, 8⟩, ⟨⟨172, 16, 0, 0⟩, 16⟩, ⟨⟨192, 168, 0, 0⟩, 16⟩]

/-- The first address outside the networks, or the first of all. -/
def firstOutside? (networks : List Network) (addresses : List Ipv4) : Option Ipv4 :=
  (addresses.find? fun address => !anyContains networks address) <|> addresses.head?

section Outside

variable {networks : List Network} {addresses : List Ipv4} {found : Ipv4}

theorem exists_firstOutside? (networks : List Network) (hfilled : addresses ≠ []) :
    ∃ found, firstOutside? networks addresses = some found := by
  rw [firstOutside?]
  cases addresses.find? fun address => !anyContains networks address with
  | some found => exact ⟨found, rfl⟩
  | none =>
    obtain ⟨head, rest, rfl⟩ := List.exists_cons_of_ne_nil hfilled
    exact ⟨head, rfl⟩

/-- An address counts because it is outside after addresses that are not, or because it is the
first and none is outside. -/
theorem firstOutside?_eq_some_iff :
    firstOutside? networks addresses = some found ↔
      (anyContains networks found = false ∧ ∃ before after, addresses = before ++ found :: after ∧
        ∀ address ∈ before, anyContains networks address) ∨
      ((∀ address ∈ addresses, anyContains networks address) ∧ addresses.head? = some found) := by
  rw [firstOutside?]
  constructor
  · intro hfound
    cases hfirst : addresses.find? fun address => !anyContains networks address with
    | none =>
      rw [hfirst] at hfound
      exact .inr ⟨by simpa using List.find?_eq_none.1 hfirst, hfound⟩
    | some first =>
      rw [hfirst] at hfound
      obtain rfl : first = found := Option.some.inj hfound
      obtain ⟨houtside, before, after, haddresses, hbefore⟩ :=
        List.find?_eq_some_iff_append.1 hfirst
      exact .inl ⟨by simpa using houtside, before, after, haddresses, by simpa using hbefore⟩
  · rintro (⟨houtside, before, after, haddresses, hbefore⟩ | ⟨hall, hhead⟩)
    · rw [List.find?_eq_some_iff_append.2
        ⟨by simpa using houtside, before, after, haddresses, by simpa using hbefore⟩]
      rfl
    · rw [List.find?_eq_none.2 (by simpa using hall)]
      exact hhead

end Outside

theorem anyContains_passedOver_iff (address : Ipv4) :
    anyContains passedOver address ↔
      address.first = 10 ∨ (address.first = 172 ∧ address.second = 16) ∨
        (address.first = 192 ∧ address.second = 168) := by
  obtain ⟨first, second, third, fourth⟩ := address
  simp only [anyContains, passedOver, contains, Ipv4.number, List.any_cons, List.any_nil,
    Bool.or_false, Bool.or_eq_true, beq_iff_eq, Fin.ext_iff, Nat.shiftRight_eq_div_pow]
  omega

theorem anyContains_privateUse_iff (address : Ipv4) :
    anyContains privateUse address ↔
      anyContains passedOver address ∨
        (address.first = 172 ∧ 17 ≤ address.second ∧ address.second ≤ 31) := by
  rw [anyContains_passedOver_iff]
  obtain ⟨first, second, third, fourth⟩ := address
  simp only [anyContains, privateUse, contains, Ipv4.number, List.any_cons, List.any_nil,
    Bool.or_false, Bool.or_eq_true, beq_iff_eq, Fin.ext_iff, Fin.le_def,
    Nat.shiftRight_eq_div_pow]
  omega

end Network

namespace Text

/-- Trimming takes away what surrounds a body without blanks. -/
theorem trimmed_surrounded {blank : Char → Bool} {before body after : List Char}
    (hbefore : ∀ character ∈ before, blank character)
    (hbody : ∀ character ∈ body, blank character = false)
    (hafter : ∀ character ∈ after, blank character) :
    trimmed blank (before ++ body ++ after) = body := by
  have hback : ((body ++ after).reverse).dropWhile blank = body.reverse := by
    rw [List.reverse_append, List.dropWhile_append_of_pos
      fun character hcharacter => hafter character (List.mem_reverse.1 hcharacter),
      List.dropWhile_eq_self_iff]
    exact fun hfilled =>
      Bool.eq_false_iff.1 (hbody _ (List.mem_reverse.1 (List.getElem_mem hfilled)))
  rw [trimmed, List.append_assoc, List.dropWhile_append_of_pos hbefore]
  cases body with
  | nil =>
    have hnone : after.dropWhile blank = [] := by
      rw [← List.append_nil after, List.dropWhile_append_of_pos hafter]
      rfl
    rw [List.nil_append, hnone]
    rfl
  | cons head rest =>
    rw [List.cons_append, List.dropWhile_cons, hbody head List.mem_cons_self,
      if_neg Bool.false_ne_true, ← List.cons_append, hback, List.reverse_reverse]

end Text

namespace Client

/-- The beginnings of private addresses are octets with a dot behind each. -/
theorem isPrivate_dotted (address : Ipv4) :
    isPrivate address.dotted = Network.anyContains Network.passedOver address := by
  have hten : "10.".toList = Nat.toDigits 10 10 ++ '.' :: [] := rfl
  have hsixteen : "172.16.".toList =
      Nat.toDigits 10 172 ++ '.' :: (Nat.toDigits 10 16 ++ '.' :: []) := rfl
  have hlast : "192.168.".toList =
      Nat.toDigits 10 192 ++ '.' :: (Nat.toDigits 10 168 ++ '.' :: []) := rfl
  refine Bool.eq_iff_iff.2 ?_
  rw [Network.anyContains_passedOver_iff]
  simp only [isPrivate, privateBeginnings, List.any_cons, List.any_nil, Bool.or_false,
    Bool.or_eq_true, String.startsWith_string_iff, hten, hsixteen, hlast, Ipv4.toList_dotted,
    Text.append_cons_prefix_iff (Ipv4.dot_not_mem_toDigits _) (Ipv4.dot_not_mem_toDigits _),
    Text.toDigits_inj, List.nil_prefix, and_true, Fin.ext_iff]
  omega

/-- An entry of a forwarding list: an address or none, with blanks around it. -/
structure Hop where
  before : { blanks : List Char // ∀ character ∈ blanks, Text.isSeparator character }
  address? : Option Ipv4
  after : { blanks : List Char // ∀ character ∈ blanks, Text.isSeparator character }

namespace Hop

def body (hop : Hop) : List Char :=
  (hop.address?.map fun address => address.dotted.toList).getD []

def text (hop : Hop) : List Char :=
  hop.before ++ hop.body ++ hop.after

def listed (hops : List Hop) : String :=
  String.ofList ([','].intercalate (hops.map text))

def addresses (hops : List Hop) : List Ipv4 :=
  hops.filterMap address?

theorem isDigit_or_eq_dot_of_mem_dotted {address : Ipv4} {character : Char}
    (hcharacter : character ∈ address.dotted.toList) : character.isDigit ∨ character = '.' := by
  simp only [Ipv4.toList_dotted, List.mem_append, List.mem_cons] at hcharacter
  have hdigits : ∀ octet : Nat, character ∈ Nat.toDigits 10 octet → character.isDigit :=
    fun octet => Text.isDigit_of_mem_toDigits
  grind

theorem isDigit_or_eq_dot_of_mem_body {hop : Hop} {character : Char}
    (hcharacter : character ∈ hop.body) : character.isDigit ∨ character = '.' := by
  cases haddress : hop.address? with
  | none => simp [body, haddress] at hcharacter
  | some address =>
    rw [body, haddress] at hcharacter
    exact isDigit_or_eq_dot_of_mem_dotted hcharacter

theorem isSeparator_of_mem_body {hop : Hop} {character : Char} (hcharacter : character ∈ hop.body) :
    Text.isSeparator character = false := by
  rcases isDigit_or_eq_dot_of_mem_body hcharacter with hdigit | rfl
  · exact Text.isSeparator_of_isDigit hdigit
  · decide

theorem comma_not_mem_text (hop : Hop) : ',' ∉ hop.text := by
  simp only [text, List.mem_append, not_or]
  refine ⟨⟨fun hcomma => ?_, fun hcomma => ?_⟩, fun hcomma => ?_⟩
  · exact absurd (hop.before.2 _ hcomma) (by decide)
  · exact absurd (isDigit_or_eq_dot_of_mem_body hcomma) (by decide)
  · exact absurd (hop.after.2 _ hcomma) (by decide)

theorem trimmed_text (hop : Hop) : Text.trimmed Text.isSeparator hop.text = hop.body :=
  Text.trimmed_surrounded hop.before.2 (fun _ => isSeparator_of_mem_body) hop.after.2

/-- Only blank entries have nothing between the blanks. -/
theorem filter_bodies (hops : List Hop) :
    (hops.map body).filter (fun body => !body.isEmpty) =
      (addresses hops).map fun address => address.dotted.toList := by
  induction hops with
  | nil => rfl
  | cons hop rest ih =>
    rw [List.map_cons, List.filter_cons, ih, addresses, addresses, List.filterMap_cons]
    cases haddress : hop.address? with
    | none => simp [body, haddress]
    | some address => simp [body, haddress, Ipv4.toList_dotted]

/-- Reading a forwarding list gives its addresses in order. -/
theorem forwarded_listed {hops : List Hop} (hfilled : hops ≠ []) :
    forwarded (listed hops) = (addresses hops).map Ipv4.dotted := by
  have hpieces : pieces (listed hops) = hops.map text := by
    rw [pieces, listed, String.toList_ofList,
      List.splitOn_intercalate ',' ?_ (by simpa using hfilled)]
    rintro written hwritten
    obtain ⟨hop, -, rfl⟩ := List.mem_map.1 hwritten
    exact comma_not_mem_text hop
  have hbodies : (hops.map text).map (Text.trimmed Text.isSeparator) = hops.map body := by
    rw [List.map_map]
    exact List.map_congr_left fun hop _ => trimmed_text hop
  simp [forwarded, hpieces, hbodies, filter_bodies]

end Hop

/-- The first address counts that none of the beginnings stands for, or else the first of all. -/
theorem ofForwarded?_dotted (addresses : List Ipv4) :
    ofForwarded? (addresses.map Ipv4.dotted) =
      (Network.firstOutside? Network.passedOver addresses).map Ipv4.dotted := by
  have hpassed : ((fun address => !isPrivate address) ∘ Ipv4.dotted) =
      fun address => !Network.anyContains Network.passedOver address :=
    funext fun address => by rw [Function.comp, isPrivate_dotted]
  rw [ofForwarded?, Network.firstOutside?, List.find?_map, List.head?_map, hpassed]
  cases addresses.find? fun address => !Network.anyContains Network.passedOver address <;> rfl

/-- The address that counts is the one that should, unless it is one of those that the beginnings
overlook. -/
theorem eq_firstOutside?_iff {addresses : List Ipv4} {found expected : Ipv4}
    (hfound : Network.firstOutside? Network.passedOver addresses = some found)
    (hexpected : Network.firstOutside? Network.privateUse addresses = some expected) :
    found = expected ↔
      (found.first = 172 ∧ 17 ≤ found.second ∧ found.second ≤ 31 →
        (∀ address ∈ addresses, Network.anyContains Network.privateUse address) ∧
          addresses.head? = some found) := by
  have houter : ∀ address, Network.anyContains Network.passedOver address →
      Network.anyContains Network.privateUse address :=
    fun address hpassed => (Network.anyContains_privateUse_iff address).2 (.inl hpassed)
  constructor
  · rintro rfl hoverlooked
    have hprivate := (Network.anyContains_privateUse_iff found).2 (.inr hoverlooked)
    rcases Network.firstOutside?_eq_some_iff.1 hexpected with ⟨houtside, -⟩ | hall
    · exact absurd hprivate (Bool.eq_false_iff.1 houtside)
    · exact hall
  · intro hcondition
    suffices hsame : Network.firstOutside? Network.privateUse addresses = some found from
      Option.some.inj (hsame.symm.trans hexpected)
    rw [Network.firstOutside?_eq_some_iff]
    rcases Network.firstOutside?_eq_some_iff.1 hfound with
      ⟨houtside, before, after, haddresses, hbefore⟩ | ⟨hall, hhead⟩
    · by_cases hprivate : Network.anyContains Network.privateUse found
      · rcases (Network.anyContains_privateUse_iff found).1 hprivate with hpassed | hoverlooked
        · exact absurd hpassed (Bool.eq_false_iff.1 houtside)
        · exact .inr (hcondition hoverlooked)
      · exact .inl ⟨Bool.eq_false_iff.2 hprivate, before, after, haddresses,
          fun address hmem => houter address (hbefore address hmem)⟩
    · exact .inr ⟨fun address hmem => houter address (hall address hmem), hhead⟩

/-- The client of a request with a forwarding list is the first address in it that none of the
beginnings stands for, and failing such an address the first.  This is the first address outside
the private networks, or failing that the first, exactly if it is not overlooked. -/
theorem address_listed (headers : Headers) (remote : String) (hops : List Hop)
    (hheader : headers.value? "X-Forwarded-For" = some (Hop.listed hops))
    (haddress : Hop.addresses hops ≠ []) :
    ∃ found expected,
      Network.firstOutside? Network.passedOver (Hop.addresses hops) = some found ∧
      Network.firstOutside? Network.privateUse (Hop.addresses hops) = some expected ∧
      address headers remote = found.dotted ∧
      (address headers remote = expected.dotted ↔
        (found.first = 172 ∧ 17 ≤ found.second ∧ found.second ≤ 31 →
          (∀ other ∈ Hop.addresses hops, Network.anyContains Network.privateUse other) ∧
            (Hop.addresses hops).head? = some found)) := by
  have hfilled : hops ≠ [] := by
    rintro rfl
    exact haddress rfl
  obtain ⟨found, hfound⟩ := Network.exists_firstOutside? Network.passedOver haddress
  obtain ⟨expected, hexpected⟩ := Network.exists_firstOutside? Network.privateUse haddress
  have hclient : address headers remote = found.dotted := by
    rw [address, hheader, Option.getD_some, Hop.forwarded_listed hfilled, ofForwarded?_dotted,
      hfound, Option.map_some]
  refine ⟨found, expected, hfound, hexpected, hclient, ?_⟩
  rw [hclient, Ipv4.dotted_injective.eq_iff]
  exact eq_firstOutside?_iff hfound hexpected

/-- A list of a private address, a blank and two public ones. -/
def mixedHops : List Hop :=
  let blank : { blanks : List Char // ∀ character ∈ blanks, Text.isSeparator character } :=
    ⟨[' '], List.forall_mem_singleton.2 rfl⟩
  let nothing : { blanks : List Char // ∀ character ∈ blanks, Text.isSeparator character } :=
    ⟨[], List.forall_mem_nil _⟩
  [⟨nothing, some ⟨172, 16, 0, 9⟩, blank⟩, ⟨blank, none, nothing⟩,
    ⟨blank, some ⟨8, 8, 8, 8⟩, blank⟩, ⟨nothing, some ⟨9, 9, 9, 9⟩, nothing⟩]

theorem address_listed_mixed :
    Headers.value? [("x-forwarded-for", "172.16.0.9 , , 8.8.8.8 ,9.9.9.9")] "X-Forwarded-For" =
        some (Hop.listed mixedHops) ∧
      Hop.addresses mixedHops ≠ [] ∧
      ∃ found expected,
        Network.firstOutside? Network.passedOver (Hop.addresses mixedHops) = some found ∧
        Network.firstOutside? Network.privateUse (Hop.addresses mixedHops) = some expected ∧
        address [("x-forwarded-for", "172.16.0.9 , , 8.8.8.8 ,9.9.9.9")] "127.0.0.1" =
          found.dotted ∧
        (address [("x-forwarded-for", "172.16.0.9 , , 8.8.8.8 ,9.9.9.9")] "127.0.0.1" =
            expected.dotted ↔
          (found.first = 172 ∧ 17 ≤ found.second ∧ found.second ≤ 31 →
            (∀ other ∈ Hop.addresses mixedHops, Network.anyContains Network.privateUse other) ∧
              (Hop.addresses mixedHops).head? = some found)) :=
  have hheader : Headers.value? [("x-forwarded-for", "172.16.0.9 , , 8.8.8.8 ,9.9.9.9")]
      "X-Forwarded-For" = some (Hop.listed mixedHops) := by decide +kernel
  have haddress : Hop.addresses mixedHops ≠ [] := by decide
  ⟨hheader, haddress, address_listed _ _ _ hheader haddress⟩

/-- An overlooked address counts, although a public one stands behind it. -/
theorem overlooked_counts :
    address [("X-Forwarded-For", "172.31.0.1, 8.8.8.8")] "127.0.0.1" = "172.31.0.1" ∧
      Ipv4.dotted ⟨172, 31, 0, 1⟩ = "172.31.0.1" ∧
      Network.firstOutside? Network.privateUse [⟨172, 31, 0, 1⟩, ⟨8, 8, 8, 8⟩] =
        some ⟨8, 8, 8, 8⟩ ∧
      Ipv4.dotted ⟨8, 8, 8, 8⟩ = "8.8.8.8" := by
  decide +kernel

end Client

end RegexAutomata

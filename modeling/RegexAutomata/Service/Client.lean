import RegexAutomata.Service.Headers

/-!
# Whose request it is

The address of the client behind proxies.  Proxies list the addresses that a request came through;
of these the first that is not in a private network counts.  Failing such a list, one proxy may
name the address, and failing that it is the address of the connection.
-/

namespace RegexAutomata

namespace Client

def pieces (text : String) : List (List Char) :=
  text.toList.splitOn ','

/-- The addresses in a forwarding list, without blanks around them and without empty ones. -/
def forwarded (list : String) : List String :=
  let addresses := (pieces list).map (Text.trimmed Text.isSeparator)
  (addresses.filter fun address => !address.isEmpty).map String.ofList

def privateBeginnings : List String :=
  ["10.", "172.16.", "192.168."]

def isPrivate (address : String) : Bool :=
  privateBeginnings.any fun beginning => address.startsWith beginning

/-- The address that counts in a forwarding list: the first public one, or the first of all. -/
def ofForwarded? (addresses : List String) : Option String :=
  (addresses.find? fun address => !isPrivate address) <|> addresses.head?

/-- The address of a connection; one that is not known counts as local. -/
def ofConnection (remote : String) : String :=
  if remote.isEmpty then "127.0.0.1" else remote

def address (headers : Headers) (remote : String) : String :=
  match ofForwarded? (forwarded ((headers.value? "X-Forwarded-For").getD "")) with
  | some found => found
  | none => (headers.value? "X-Real-IP").getD (ofConnection remote)

end Client
end RegexAutomata

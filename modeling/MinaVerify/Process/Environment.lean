import MinaVerify.Process.Networks

/-! # What a binary reads of its surroundings

The binaries take their settings from the environment and their inputs from files; the server and the
command line may read a verifier index from a file that `MINA_VK_JSON` names. -/
namespace MinaVerify
set_option autoImplicit false

variable {T : Types}

/-- `std::env::var`, with `none` for a variable that is unset or not Unicode, the two ways a file is read,
each with the text of its error, and the `Debug` text of a string. -/
structure Environment where
  var : String → Option String
  readToString : String → Except String String
  read : String → Except String (List UInt8)
  debug : String → String

/-- `env_or`. -/
def Environment.envOr (env : Environment) (key default : String) : String :=
  (env.var key).getD default

def ForNetworkError.display (debug : String → String) : ForNetworkError → String
  | .unknownNetwork network =>
    "unknown network " ++ debug network ++ "; supported: [\"devnet\", \"mainnet\"]"
  | .networkAlreadyInitialized active requested =>
    "network " ++ debug active ++ " already active in this process; cannot build a " ++
      debug requested ++ " verifier"
  | .verificationKeyUnavailable network =>
    "could not load the " ++ debug network ++
      " blockchain verification key (embedded index unparseable — regenerate it upstream)"
  | .invalidIndexJson e => "invalid verifier-index JSON: " ++ e

/-- The derived `Debug`. -/
def ForNetworkError.debug (debug : String → String) : ForNetworkError → String
  | .unknownNetwork network => "UnknownNetwork(" ++ debug network ++ ")"
  | .networkAlreadyInitialized active requested =>
    "NetworkAlreadyInitialized \x7b active: " ++ debug active ++ ", requested: " ++ debug requested ++ " \x7d"
  | .verificationKeyUnavailable network =>
    "VerificationKeyUnavailable \x7b network: " ++ debug network ++ " \x7d"
  | .invalidIndexJson e => "InvalidIndexJson(" ++ debug e ++ ")"

/-! ## Numbers -/

/-- Decimal digits, of which there is at least one, as a number below the limit. -/
def parseDigits (limit : ℕ) (digits : List Char) : Option ℕ :=
  if digits ≠ [] ∧ digits.all Char.isDigit then
    let n := digits.foldl (fun n c => 10 * n + (c.toNat - '0'.toNat)) 0
    if n < limit then some n else none
  else none

/-- `str::parse` for `usize` and `u64`: a plus sign may stand before the digits. -/
def parseU64 (text : String) : Option ℕ :=
  match text.toList with
  | '+' :: digits => parseDigits UInt64.size digits
  | digits => parseDigits UInt64.size digits

end MinaVerify

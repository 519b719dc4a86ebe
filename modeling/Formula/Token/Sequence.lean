import Formula.Token.Scan

/-!
# The tokens of a text

The tokens of a text are those before its end or, where reading fails, before the fault.  An
evaluation that comes to the end of the text uses all of them, one by one.
-/

namespace Formula.Token

/-- Reads tokens up to the end or the first fault. -/
def sequence (size : Nat) (bytes : List UInt8) : List Token × Option Fault :=
  match hn : next size bytes with
  | .error fault _ => ([], some fault)
  | .ok token rest =>
    if ht : token = .done then ([], none)
    else
      have : rest.length < bytes.length := length_lt_of_next hn ht
      let (tokens, fault) := sequence size rest
      (token :: tokens, fault)
termination_by bytes.length

end Formula.Token

import Specter.Codec
import Specter.Lib.Runes

/-!
# Comparing with the token of a version

A token is any bytes, and is taken apart at its dots.  The name is decoded leniently and the version
strictly, and a token that is not the one its parts are written as is refused.
-/

namespace Specter.Config

open Lib

def Record.compareVersion (r : Record) (token : Bytes) : Except Error Ordering :=
  if token.length > 1024 then .error .invalidVersion
  else
    match (chars token).splitOn '.' with
    | [['v', '1'], encodedName, text] =>
      match Base64.decodeRaw encodedName with
      | none => .error .invalidVersion
      | some name =>
        -- the decoded name is this record's, so its validity is that of the record's name
        if !validName r.name ∨ name ≠ r.name.toUTF8.toList then .error .invalidVersion
        else
          -- a byte above 127 is not a digit, so it does not matter which size it is counted with
          match Version.unmarshalText text with
          | none => .error .invalidVersion
          | some version =>
            if (Record.token ⟨r.name, version, []⟩).toUTF8.toList ≠ token then
              .error .invalidVersion
            else .ok (r.version.compare version)
    | _ => .error .invalidVersion

end Specter.Config

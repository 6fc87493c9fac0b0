/-!
# Bytes of a text

Text is stored as UTF-8. `decode?` is the exact inverse of `encode` on its image; bytes
that no text encodes are refused. `decodeCut` is for output that may have been cut off in
the middle of a character.
-/

namespace OnePass.Text

/-- The UTF-8 bytes of a text. -/
def encode (s : String) : List UInt8 := s.toUTF8.data.toList

/-- The text that bytes encode, if they are well-formed UTF-8. -/
def decode? (bytes : List UInt8) : Option String :=
  String.fromUTF8? ⟨bytes.toArray⟩

/-- The text of the bytes of a text. -/
theorem decode?_encode (s : String) : decode? (encode s) = some s := by
  have hbytes : (⟨(encode s).toArray⟩ : ByteArray) = s.toByteArray := rfl
  unfold decode? String.fromUTF8?
  rw [hbytes, dif_pos s.isValidUTF8]
  rfl

/-- Bytes of which a text is made are those of that text. -/
theorem encode_of_decode? {bytes : List UInt8} {s : String} (h : decode? bytes = some s) :
    encode s = bytes := by
  unfold decode? String.fromUTF8? at h
  split at h
  · obtain rfl := Option.some.inj h
    rfl
  · cases h

/-- The text of bytes of which at most the last character is cut off; what is left of
that one is shown as a replacement character. -/
def decodeCut (bytes : List UInt8) : String :=
  let tails := [1, 2, 3].filterMap fun n => decode? (bytes.take (bytes.length - n))
  match decode? bytes, tails with
  | some s, _ => s
  | none, s :: _ => s.push '\ufffd'
  | none, [] => "\ufffd"

end OnePass.Text

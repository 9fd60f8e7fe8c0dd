import Fieldwatch.Field.Handling
import Fieldwatch.Proofs.Command.Decoding

/-! Commands reach a field in an envelope that names their kind, or on a route of their own kind.
The envelope makes no difference: what follows the four bytes of the kind is handled as on the route
of that kind, whether it is a command or not. -/

namespace Fieldwatch.Field

open Bytes

variable {β : Type} (f : Field β)

theorem onDecoded_map {γ δ : Type} (g : γ → δ) (act : δ → Effects (Field β))
    (r : Except DecodeError γ) : f.onDecoded act (g <$> r) = f.onDecoded (fun c => act (g c)) r := by
  cases r <;> rfl

theorem handle_malformed {session : EntityId} {bs : Bytes} {e : DecodeError}
    (h : Envelope.decode bs = .error e) :
    f.handle (.envelope session bs) = ⟨(f, .completed), [.raise .messagesMalformed 1]⟩ := by
  rw [handle, h]
  rfl

/-- An envelope of a known kind does to a field, and has it announce, exactly what the rest of the
bytes does on the route of that kind. Any other envelope is counted as malformed and does nothing
else. -/
theorem handle_envelope (session : EntityId) (bs : Bytes) :
    f.handle (.envelope session bs) =
      match bs with
      | 0 :: 0 :: 0 :: 0 :: r => f.handle (.move session r)
      | 1 :: 0 :: 0 :: 0 :: r => f.handle (.skill session r)
      | 2 :: 0 :: 0 :: 0 :: _ => f.handle (.leave session)
      | _ => ⟨(f, .completed), [.raise .messagesMalformed 1]⟩ := by
  split
  · next r =>
    rw [handle, show 0 :: 0 :: 0 :: 0 :: r = ofNat 4 0 ++ r from rfl, Envelope.decode_move,
      onDecoded_map]
    rfl
  · next r =>
    rw [handle, show 1 :: 0 :: 0 :: 0 :: r = ofNat 4 1 ++ r from rfl, Envelope.decode_skill,
      onDecoded_map]
    rfl
  · next r =>
    rw [handle, show 2 :: 0 :: 0 :: 0 :: r = ofNat 4 2 ++ r from rfl, Envelope.decode_leave]
    rfl
  · next hmove hskill hleave =>
    cases Envelope.form bs with
    | short h => exact f.handle_malformed (Envelope.decode_short h)
    | move r => exact (hmove r rfl).elim
    | skill r => exact (hskill r rfl).elim
    | leave r => exact (hleave r rfl).elim
    | unknown hk hb r => exact f.handle_malformed (Envelope.decode_unknown hk hb r)

end Fieldwatch.Field

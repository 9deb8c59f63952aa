import MfskCore.Msg.Jt72
import MfskCore.Msg.WsprRoundTrip

/-! The shared callsign code under the character tables of its two callers, JT65/JT9 and WSPR. -/
namespace MfskCore.Msg
open Rust

theorem Jt72.readsSlots_nchar : ReadsSlots Jt72.nchar := by
  intro v hv
  revert v
  decide +kernel

theorem Wspr.readsSlots_callsignCharCode : ReadsSlots Wspr.callsignCharCode := by
  intro v hv
  revert v
  decide +kernel

/-- Every number below `NBASE` is the code of exactly one call. -/
theorem callsign28_bijective : PacksAllCodes Jt72.nchar ∧ PacksAllCodes Wspr.callsignCharCode :=
  ⟨packsAllCodes Jt72.readsAlphabet_nchar Jt72.readsSlots_nchar,
    packsAllCodes Wspr.readsAlphabet_callsignCharCode Wspr.readsSlots_callsignCharCode⟩

end MfskCore.Msg

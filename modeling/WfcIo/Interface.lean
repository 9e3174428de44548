import Mathlib.Data.UInt
import Mathlib.Data.List.Basic

/-!
# The input/output interface

The vocabulary of `wfc::iinterface`, through which all components of the package are
wired together: a component is called by `reg_io`, `unreg_io` and `perform_io`, and
answers through the handler it was given.

A `std::weak_ptr<iinterface>` argument is an `Option Source` (`none` is a null weak
pointer), a `data_ptr` is an `Option Data` (`none` is `nullptr`), and an
`output_handler_t` an `Option Handler` (`none` is an empty function). A source or a
handler is an object of the caller; the model knows it by a number.
-/

namespace WfcIo

/-- `io_id_t`. -/
abbrev IoId := ℕ

/-- An object outside the component that implements `iinterface`. -/
abbrev Source := ℕ

/-- A non-empty `output_handler_t` made outside the component. -/
abbrev Handler := ℕ

/-- An object that a component is wired to and passes calls on to. -/
abbrev Target := ℕ

/-- A connection of a TCP client or server. -/
abbrev Conn := ℕ

/-- `iinterface::data_type`, a vector of characters. -/
abbrev Data := List UInt8

/-- `iinterface::data_ptr`. -/
abbrev DataPtr := Option Data

/-- A call of the interface, with interface pointers from `ι` and output handlers from `η`. -/
inductive IoCall (ι η : Type)
  | regIo (id : IoId) (itf : ι)
  | unregIo (id : IoId)
  | performIo (d : DataPtr) (id : IoId) (handler : η)
  deriving DecidableEq

/-- A call as a source makes it. -/
abbrev SourceCall := IoCall (Option Source) (Option Handler)

/-- The id of the caller. -/
def IoCall.id {ι η : Type} : IoCall ι η → IoId
  | regIo id _ => id
  | unregIo id => id
  | performIo _ id _ => id

/-- The id whose registration the call relies on. -/
def IoCall.uses {ι η : Type} : IoCall ι η → Option IoId
  | performIo _ id _ => some id
  | _ => none

theorem IoCall.id_of_uses {ι η : Type} {id : IoId} (c : IoCall ι η) (h : c.uses = some id) :
    c.id = id := by
  cases c with
  | performIo d k handler => exact Option.some.inj h
  | regIo k itf => cases h
  | unregIo k => cases h

/-- What the call says about the registration of `id`. -/
def IoCall.word {ι η : Type} (id : IoId) : IoCall ι η → Option Bool
  | regIo k _ => if k = id then some true else none
  | unregIo k => if k = id then some false else none
  | performIo _ _ _ => none

variable {ι η : Type} {id k : IoId} {w : Bool}

theorem IoCall.id_of_word (c : IoCall ι η) (h : c.word id = some w) : c.id = id := by
  cases c with
  | performIo d k handler => cases h
  | regIo k itf =>
    simp only [IoCall.word] at h
    split at h
    · next hk => exact hk
    · cases h
  | unregIo k =>
    simp only [IoCall.word] at h
    split at h
    · next hk => exact hk
    · cases h

/-- A message says nothing about registrations. -/
theorem IoCall.word_of_uses (c : IoCall ι η) (h : c.uses = some k) : c.word id = none := by
  cases c with
  | performIo d k handler => rfl
  | regIo k itf => cases h
  | unregIo k => cases h

end WfcIo

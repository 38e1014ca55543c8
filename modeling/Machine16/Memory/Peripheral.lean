import Machine16.Memory.Ram
import Machine16.Memory.Screen

/-! The devices that a bus may hold. -/
namespace Machine16

inductive Peripheral
  | ram (m : Ram)
  | screen (s : Screen)
  deriving DecidableEq

namespace Peripheral

instance : Device Peripheral where
  readByte
    | ram m, a => Device.readByte m a
    | screen s, a => Device.readByte s a
  readWord
    | ram m, a => Device.readWord m a
    | screen s, a => Device.readWord s a
  writeByte a b
    | ram m => Update.within ram (Device.writeByte a b m)
    | screen s => Update.within screen (Device.writeByte a b s)
  writeWord a w
    | ram m => Update.within ram (Device.writeWord a w m)
    | screen s => Update.within screen (Device.writeWord a w s)

end Peripheral

/-- Devices of two kinds on one bus. A bus can be a device of another bus. -/
instance {δ ε : Type} [Addressable δ] [Addressable ε] : Addressable (δ ⊕ ε) where
  getByte a
    | .inl d => Update.within .inl (Addressable.getByte a d)
    | .inr d => Update.within .inr (Addressable.getByte a d)
  getWord a
    | .inl d => Update.within .inl (Addressable.getWord a d)
    | .inr d => Update.within .inr (Addressable.getWord a d)
  writeByte a b
    | .inl d => Update.within .inl (Addressable.writeByte a b d)
    | .inr d => Update.within .inr (Addressable.writeByte a b d)
  writeWord a w
    | .inl d => Update.within .inl (Addressable.writeWord a w d)
    | .inr d => Update.within .inr (Addressable.writeWord a w d)

end Machine16

import PiWxRx.Rings.Protocol
import PiWxRx.Rtl

/-!
# The received-byte ring

`databuffer.c`: the FSK decoder puts received bytes, the application takes them out one at a
time. `databuffer_get` is the test step and the use step of the ring protocol.
-/

namespace PiWxRx

open Circular

/-- `bufferSIZE`. -/
abbrev bufferSize : ℕ := 128

/-- `struct data_buffer_t`, without the lock and the condition variable. -/
abbrev DataBuffer := Ring DemodByte bufferSize

/-- `databuffer_init`. -/
def databufferInit : DataBuffer where
  buffer := Vector.replicate bufferSize noByte
  wrptr := 0
  rdptr := 0

/-- The critical section of `databuffer_put`. -/
def databufferPut (dataBuffer : DataBuffer) (byterx : DemodByte) : DataBuffer :=
  { dataBuffer with
    buffer := dataBuffer.buffer.setIfInBounds dataBuffer.wrptr byterx
    wrptr := (dataBuffer.wrptr + 1) &&& (bufferSize - 1) }

/-- `databuffer_get` past its critical section. -/
def databufferTake (dataBuffer : DataBuffer) : Option DemodByte × DataBuffer :=
  (dataBuffer.buffer[dataBuffer.rdptr]?,
    { dataBuffer with rdptr := (dataBuffer.rdptr + 1) &&& (bufferSize - 1) })

/-- The operations of the received-byte ring. -/
def dataBufferOps : RingOps DemodByte DemodByte bufferSize where
  produce dataBuffer byterx := (databufferPut dataBuffer byterx, [byterx])
  consume := databufferTake

/-- The start state of the received-byte ring is the one `databuffer_init` sets up. -/
def dataBufferStart : RingState DemodByte bufferSize :=
  RingState.start databufferInit.buffer

private theorem and_bufferSize_sub_one (i : ℕ) : i &&& (bufferSize - 1) = i % bufferSize :=
  Nat.and_two_pow_sub_one_eq_mod i 7

theorem databufferPut_eq (dataBuffer : DataBuffer) (byterx : DemodByte) :
    databufferPut dataBuffer byterx = dataBuffer.put byterx := by
  rw [databufferPut, and_bufferSize_sub_one]
  rfl

theorem databufferTake_eq (dataBuffer : DataBuffer) :
    databufferTake dataBuffer = (dataBuffer.buffer[dataBuffer.rdptr]?, dataBuffer.drop) := by
  rw [databufferTake, and_bufferSize_sub_one]
  rfl

/-- The received-byte ring is a circular buffer; every put stores its byte. -/
theorem dataBufferOps_lawful : dataBufferOps.Lawful fun byterx => [byterx] where
  produce_eq r byterx := by
    simp only [dataBufferOps, databufferPut_eq]
    rfl
  consume_eq := databufferTake_eq

end PiWxRx

/-! Changes between single and double precision. -/

namespace Fieldwatch.Binary

def power (e : UInt32) : Float := .ofBits ((e.toUInt64 + 873) <<< 52)

/-- The same number in double precision. A finite number of single precision is a whole number
below `2 ^ 24` times a power of two, and in double precision both factors and the product are
exact. -/
def widen (x : Float32) : Float :=
  let bits := x.toBits
  let exponent := (bits >>> 23) &&& 0xff
  let fraction := bits &&& 0x7fffff
  let magnitude : Float :=
    if exponent = 0xff then if fraction = 0 then 1 / 0 else 0 / 0
    else if exponent = 0 then fraction.toUInt64.toFloat * power 1
    else (fraction + 0x800000).toUInt64.toFloat * power exponent
  if bits >>> 31 = 0 then magnitude else -magnitude

/-- The nearest number of single precision, of two equally near ones the even one. A finite number
of double precision is `m * 2 ^ k` with `m` whole, and for negative `k` that is the decimal number
`m * 5 ^ -k * 10 ^ k`. -/
def narrow (x : Float) : Float32 :=
  let bits := x.toBits
  let exponent := ((bits >>> 52) &&& 0x7ff).toNat
  let fraction := (bits &&& 0xfffffffffffff).toNat
  let magnitude : Float32 :=
    if exponent = 0x7ff then if fraction = 0 then 1 / 0 else 0 / 0
    else
      let m := if exponent = 0 then fraction else fraction + 0x10000000000000
      let scale := max exponent 1
      if 1075 ≤ scale then .ofScientific (m <<< (scale - 1075)) false 0
      else .ofScientific (m * Nat.pow 5 (1075 - scale)) true (1075 - scale)
  if bits >>> 63 = 0 then magnitude else -magnitude

end Fieldwatch.Binary

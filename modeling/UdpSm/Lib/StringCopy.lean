import UdpSm.Lib.CString
import UdpSm.Lib.Memory

/-! Strings of C in a memory: `strcpy`, and what is read where it wrote. -/
namespace UdpSm.Lib.Memory

def strcpy (m : Memory UInt8) (a : Nat) (s : List UInt8) : Option (Memory UInt8) :=
  m.storeAt a (s ++ [0])

/-- The string that starts at `a`. It ends with the memory at the latest. -/
def stringAt (m : Memory UInt8) (a : Nat) : List UInt8 := cstring (m.load a (m.size - a))

variable {m : Memory UInt8} {a : Nat}

theorem strcpy_inside {s : List UInt8} (h : a + s.length < m.size) :
    m.strcpy a s = some (m.store a (s ++ [0])) :=
  storeAt_natCast m a _ (by rw [List.length_append, List.length_singleton]; omega)

theorem stringAt_eq (bytes : List UInt8) (hin : a + bytes.length < m.size)
    (h : m.load a (bytes.length + 1) = bytes ++ [0]) : m.stringAt a = cstring bytes := by
  obtain ⟨rest, hrest⟩ := Nat.exists_eq_add_of_lt hin
  have hsize : m.size - a = (bytes.length + 1) + rest := by omega
  rw [stringAt, hsize, load_add, h, List.append_assoc, List.singleton_append, cstring_cut]

end UdpSm.Lib.Memory

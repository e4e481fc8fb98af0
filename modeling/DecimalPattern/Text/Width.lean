/-! # Width in bytes

Positions in a pattern and the widths of digit groups are counted in bytes of UTF-8.
-/

namespace DecimalPattern

def byteWidth (cs : List Char) : Nat := cs.foldr (fun c width => c.utf8Size + width) 0

@[simp] theorem byteWidth_nil : byteWidth [] = 0 := rfl

@[simp] theorem byteWidth_cons (c : Char) (cs : List Char) :
    byteWidth (c :: cs) = c.utf8Size + byteWidth cs := rfl

@[simp] theorem byteWidth_append (as bs : List Char) :
    byteWidth (as ++ bs) = byteWidth as + byteWidth bs := by
  induction as with
  | nil => simp
  | cons c as ih => rw [List.cons_append, byteWidth_cons, byteWidth_cons, ih, Nat.add_assoc]

/-- Cuts off the first `width` bytes, unless the cut would fall inside a character. -/
def takeBytes? : (width : Nat) → List Char → Option (List Char × List Char)
  | 0, cs => some ([], cs)
  | _ + 1, [] => none
  | width + 1, c :: cs =>
    if c.utf8Size ≤ width + 1 then
      (takeBytes? (width + 1 - c.utf8Size) cs).map fun (taken, rest) => (c :: taken, rest)
    else none

theorem takeBytes?_append {width : Nat} {cs taken rest : List Char}
    (h : takeBytes? width cs = some (taken, rest)) : taken ++ rest = cs := by
  fun_induction takeBytes? width cs generalizing taken with
  | case1 => simp_all
  | case2 => simp at h
  | case3 width c cs fits ih =>
    obtain ⟨⟨taken', rest'⟩, cut, eq⟩ := Option.map_eq_some_iff.mp h
    simp only [Prod.mk.injEq] at eq
    obtain ⟨rfl, rfl⟩ := eq
    simp [ih cut]
  | case4 => simp at h

theorem takeBytes?_byteWidth {width : Nat} {cs taken rest : List Char}
    (h : takeBytes? width cs = some (taken, rest)) : byteWidth taken = width := by
  fun_induction takeBytes? width cs generalizing taken with
  | case1 => simp_all
  | case2 => simp at h
  | case3 width c cs fits ih =>
    obtain ⟨⟨taken', rest'⟩, cut, eq⟩ := Option.map_eq_some_iff.mp h
    simp only [Prod.mk.injEq] at eq
    obtain ⟨rfl, rfl⟩ := eq
    have := ih cut
    rw [byteWidth_cons]
    omega
  | case4 => simp at h

theorem length_lt_of_takeBytes? {width : Nat} {cs taken rest : List Char} (pos : 0 < width)
    (h : takeBytes? width cs = some (taken, rest)) : rest.length < cs.length := by
  have whole := takeBytes?_append h
  have bytes := takeBytes?_byteWidth h
  cases taken with
  | nil => rw [byteWidth_nil] at bytes; omega
  | cons c taken =>
    simp only [← whole, List.cons_append, List.length_cons, List.length_append]
    omega

end DecimalPattern

import StableCoin.Governance.Python

/-!
# JSON text

A text for every document, and a reader that takes it back. It is the text
that Python writes, but for a double, which is written by its bits, and for
a character that is not plain, which is written by its number; the reader
takes no other layout. The host of the sample runs keeps its documents so.
-/

namespace Python

open StableCoin (Bytes)

namespace Json

/-! ## Characters and bytes -/

def ascii (cs : List Char) : Prop := ∀ c ∈ cs, c.toNat < 128

theorem ascii_cons {c : Char} {cs : List Char} :
    ascii (c :: cs) ↔ c.toNat < 128 ∧ ascii cs := List.forall_mem_cons

theorem ascii_of_all {cs : List Char} (h : cs.all (·.toNat < 128) = true) : ascii cs := by
  simpa [ascii] using h

theorem ascii_append {cs ds : List Char} : ascii (cs ++ ds) ↔ ascii cs ∧ ascii ds :=
  List.forall_mem_append

def encode (cs : List Char) : Bytes := cs.map fun c => UInt8.ofNat c.toNat

def decode (bs : Bytes) : List Char := bs.map fun b => Char.ofNat b.toNat

theorem decode_encode {cs : List Char} (h : ascii cs) : decode (encode cs) = cs := by
  rw [decode, encode, List.map_map]
  refine (List.map_congr_left fun c hc => ?_).trans (List.map_id cs)
  have hlt := h c hc
  simp only [Function.comp_apply, UInt8.toNat_ofNat', id_eq,
    Nat.mod_eq_of_lt (show c.toNat < 2 ^ 8 by omega), Char.ofNat_toNat]

theorem utf8EncodeChar_ascii {c : Char} (h : ∀ b ∈ String.utf8EncodeChar c, b.toNat < 128) :
    c.toNat < 128 ∧ String.utf8EncodeChar c = [UInt8.ofNat c.toNat] := by
  by_cases hc : c.toNat < 128
  · have hv : c.val.toNat ≤ 0x7f := Nat.le_of_lt_succ hc
    exact ⟨hc, by rw [String.utf8EncodeChar, if_pos hv]; rfl⟩
  · -- the first byte of a longer code is not plain
    exfalso
    have hv : ¬ c.val.toNat ≤ 0x7f := fun hle => hc (Nat.lt_succ_of_le hle)
    simp only [String.utf8EncodeChar, if_neg hv] at h
    split_ifs at h <;>
      (have hfirst := h _ (List.mem_cons_self ..)
       rw [UInt8.toNat_ofNat'] at hfirst
       omega)

theorem flatMap_utf8EncodeChar {cs : List Char}
    (h : ∀ b ∈ cs.flatMap String.utf8EncodeChar, b.toNat < 128) :
    ascii cs ∧ cs.flatMap String.utf8EncodeChar = encode cs := by
  induction cs with
  | nil => exact ⟨fun _ hin => (List.not_mem_nil hin).elim, rfl⟩
  | cons c cs ih =>
      rw [List.flatMap_cons, List.forall_mem_append] at h
      obtain ⟨hc, hcs⟩ := h
      obtain ⟨hplain, hcode⟩ := utf8EncodeChar_ascii hc
      obtain ⟨hascii, hcodes⟩ := ih hcs
      exact ⟨ascii_cons.mpr ⟨hplain, hascii⟩, by rw [List.flatMap_cons, hcode, hcodes]; rfl⟩

/-- The characters of a string, read off its bytes where they are plain:
that is all there is to evaluate then. -/
def chars (s : String) : List Char :=
  let bs := s.toByteArray.data.toList
  if bs.all (·.toNat < 128) then decode bs else s.toList

theorem chars_eq (s : String) : chars s = s.toList := by
  have hbytes : s.toByteArray.data.toList = s.toList.flatMap String.utf8EncodeChar := by
    rw [← String.utf8Encode_toList, List.utf8Encode, List.toList_data_toByteArray]
  simp only [chars]
  split
  · next hplain =>
      rw [hbytes] at hplain ⊢
      obtain ⟨hascii, hcodes⟩ := flatMap_utf8EncodeChar fun b hb =>
        of_decide_eq_true (List.all_eq_true.mp hplain b hb)
      rw [hcodes, decode_encode hascii]
  · rfl

/-! ## Writing -/

def plain (c : Char) : Bool := ' ' ≤ c && c ≤ '~' && c != '"' && c != '\\'

def writeChar (c : Char) : List Char :=
  if plain c then [c] else '\\' :: 'u' :: hexDigits 6 c.toNat

def writeString (s : String) : List Char := '"' :: ((chars s).flatMap writeChar ++ ['"'])

def writeInt : Int → List Char
  | .ofNat n => Nat.toDigits 10 n
  | .negSucc n => '-' :: Nat.toDigits 10 (n + 1)

/-- The parts `ws`, between brackets. -/
def enclose (left right : Char) (ws : List (List Char)) : List Char :=
  left :: match ws with
    | [] => [right]
    | w :: ws => w ++ (ws.flatMap (fun w => ',' :: ' ' :: w) ++ [right])

mutual

def write : Json → List Char
  | .null => ['n', 'u', 'l', 'l']
  | .bool true => ['t', 'r', 'u', 'e']
  | .bool false => ['f', 'a', 'l', 's', 'e']
  | .int n => writeInt n
  | .float bits => '#' :: hexDigits 16 bits.toNat
  | .str s => writeString s
  | .list xs => enclose '[' ']' (writeElems xs)
  | .dict items => enclose '\x7b' '\x7d' (writePairs items)

def writeElems : List Json → List (List Char)
  | [] => []
  | x :: xs => write x :: writeElems xs

def writePairs : List (String × Json) → List (List Char)
  | [] => []
  | (k, v) :: items => (writeString k ++ ':' :: ' ' :: write v) :: writePairs items

end

theorem writeElems_eq (xs : List Json) : writeElems xs = xs.map write := by
  induction xs with
  | nil => rfl
  | cons x xs ih => rw [writeElems, ih, List.map_cons]

theorem writePairs_eq (items : List (String × Json)) :
    writePairs items
      = items.map fun item => writeString item.1 ++ ':' :: ' ' :: write item.2 := by
  induction items with
  | nil => rfl
  | cons item items ih => rw [writePairs, ih, List.map_cons]

/-! ## Reading -/

section

variable {α : Type}

/-- The rest of a string, after its opening quote. -/
def readChars : List Char → Option (List Char × List Char)
  | [] => none
  | c :: cs =>
      if c = '"' then some ([], cs)
      else if c = '\\' then
        match cs with
        | 'u' :: x₁ :: x₂ :: x₃ :: x₄ :: x₅ :: x₆ :: cs =>
            (readChars cs).map fun (s, rest) =>
              (Char.ofNat (readHex [x₁, x₂, x₃, x₄, x₅, x₆]) :: s, rest)
        | _ => none
      else (readChars cs).map fun (s, rest) => (c :: s, rest)

def readNat (cs : List Char) : Option (Nat × List Char) :=
  match cs.takeWhile Char.isDigit with
  | [] => none
  | ds => some (Nat.ofDigitChars 10 ds 0, cs.dropWhile Char.isDigit)

/-- The parts that are left, each after a comma. -/
def readTail (right : Char) (part : List Char → Option (α × List Char)) :
    Nat → List Char → Option (List α × List Char)
  | 0, _ => none
  | n + 1, cs =>
      match cs with
      | ',' :: ' ' :: cs => do
          let (x, cs) ← part cs
          let (xs, cs) ← readTail right part n cs
          return (x :: xs, cs)
      | c :: cs => if c = right then some ([], cs) else none
      | [] => none

/-- The parts, after the opening bracket. -/
def readMany (right : Char) (part : List Char → Option (α × List Char)) (n : Nat)
    (cs : List Char) : Option (List α × List Char) :=
  if cs.head? = some right then some ([], cs.tail)
  else do
    let (x, cs) ← part cs
    let (xs, cs) ← readTail right part n cs
    return (x :: xs, cs)

/-- A key and its value. -/
def readPair (value : List Char → Option (Json × List Char)) :
    List Char → Option ((String × Json) × List Char)
  | '"' :: cs => do
      let (k, cs) ← readChars cs
      match cs with
      | ':' :: ' ' :: cs => do
          let (v, cs) ← value cs
          return ((String.ofList k, v), cs)
      | _ => none
  | _ => none

def readValue : Nat → List Char → Option (Json × List Char)
  | 0, _ => none
  | n + 1, cs =>
      match cs with
      | 'n' :: 'u' :: 'l' :: 'l' :: cs => some (.null, cs)
      | 't' :: 'r' :: 'u' :: 'e' :: cs => some (.bool true, cs)
      | 'f' :: 'a' :: 'l' :: 's' :: 'e' :: cs => some (.bool false, cs)
      | '"' :: cs => (readChars cs).map fun (s, cs) => (.str (String.ofList s), cs)
      | '#' :: cs =>
          let bits := BitVec.ofNat 64 (readHex (cs.take 16))
          if otherNaN bits then none else some (.float bits, cs.drop 16)
      | '[' :: cs => (readMany ']' (readValue n) n cs).map fun (xs, cs) => (.list xs, cs)
      | '\x7b' :: cs => do
          let (items, cs) ← readMany '\x7d' (readPair (readValue n)) n cs
          if (items.map Prod.fst).Nodup then return (.dict items, cs) else none
      | '-' :: cs => (readNat cs).map fun (m, cs) => (.int (-m), cs)
      | cs => (readNat cs).map fun (m, cs) => (.int m, cs)

end

/-! ## What is written is read -/

/-- The text goes on with something that is not part of a number. -/
def Stops (cs : List Char) : Prop := ∀ c ∈ cs.head?, c.isDigit = false

section

variable {cs rest : List Char} {n : Nat}

theorem stops_cons {c : Char} : Stops (c :: cs) ↔ c.isDigit = false := by
  simp [Stops]

theorem readHex_six (h : n < 16 ^ 6) :
    ∃ x₁ x₂ x₃ x₄ x₅ x₆, hexDigits 6 n = [x₁, x₂, x₃, x₄, x₅, x₆]
      ∧ readHex [x₁, x₂, x₃, x₄, x₅, x₆] = n := by
  obtain ⟨x₁, x₂, x₃, x₄, x₅, x₆, hxs⟩ : ∃ x₁ x₂ x₃ x₄ x₅ x₆,
      hexDigits 6 n = [x₁, x₂, x₃, x₄, x₅, x₆] := ⟨_, _, _, _, _, _, rfl⟩
  refine ⟨x₁, x₂, x₃, x₄, x₅, x₆, hxs, ?_⟩
  rw [← hxs, readHex_hexDigits, Nat.mod_eq_of_lt h]

theorem readChars_writeChar (c : Char) (cs : List Char) :
    readChars (writeChar c ++ cs) = (readChars cs).map fun (s, rest) => (c :: s, rest) := by
  unfold writeChar
  split
  · next hplain =>
      have hquote : c ≠ '"' := by rintro rfl; revert hplain; decide
      have hescape : c ≠ '\\' := by rintro rfl; revert hplain; decide
      rw [List.singleton_append, readChars.eq_def]
      simp only [hquote, hescape, if_false]
  · have hlt : c.toNat < 16 ^ 6 := by
      rcases c.valid with hv | hv
      · exact hv.trans (by decide)
      · exact hv.2.trans (by decide)
    obtain ⟨x₁, x₂, x₃, x₄, x₅, x₆, hxs, hread⟩ := readHex_six hlt
    rw [hxs]
    simp [readChars, hread]

theorem readChars_write (s : String) (cs : List Char) :
    readChars ((chars s).flatMap writeChar ++ '"' :: cs) = some (s.toList, cs) := by
  rw [chars_eq]
  induction s.toList with
  | nil => rw [List.flatMap_nil, List.nil_append, readChars.eq_def]; rfl
  | cons c s ih => rw [List.flatMap_cons, List.append_assoc, readChars_writeChar, ih]; rfl

theorem readNat_toDigits (n : Nat) (h : Stops rest) :
    readNat (Nat.toDigits 10 n ++ rest) = some (n, rest) := by
  have hdigits : ∀ c ∈ Nat.toDigits 10 n, c.isDigit = true :=
    fun c hc => Nat.isDigit_of_mem_toDigits (by decide) (by decide) hc
  have hstop : rest.takeWhile Char.isDigit = [] ∧ rest.dropWhile Char.isDigit = rest := by
    cases rest with
    | nil => exact ⟨rfl, rfl⟩
    | cons c cs => simp [stops_cons.mp h]
  have htake : (Nat.toDigits 10 n ++ rest).takeWhile Char.isDigit = Nat.toDigits 10 n := by
    rw [List.takeWhile_append_of_pos hdigits, hstop.1, List.append_nil]
  have hdrop : (Nat.toDigits 10 n ++ rest).dropWhile Char.isDigit = rest := by
    rw [List.dropWhile_append_of_pos hdigits, hstop.2]
  have hvalue := Nat.ofDigitChars_ten_toDigits (n := n)
  rw [readNat, htake, hdrop]
  cases hxs : Nat.toDigits 10 n with
  | nil => exact absurd hxs Nat.toDigits_ne_nil
  | cons d ds =>
      rw [hxs] at hvalue
      simp only [hvalue]

end

section

variable {α : Type} {right : Char} {part : List Char → Option (α × List Char)}
  {w : α → List Char} {xs : List α} {rest : List Char} {n : Nat}

/-- The parts after the first one, if each is read back. -/
theorem readTail_write (hright : right ≠ ',' ∧ right.isDigit = false)
    (hpart : ∀ x ∈ xs, ∀ rest, Stops rest → part (w x ++ rest) = some (x, rest))
    (hn : xs.length < n) :
    readTail right part n ((xs.map w).flatMap (fun w => ',' :: ' ' :: w) ++ right :: rest)
      = some (xs, rest) := by
  induction xs generalizing n with
  | nil =>
      obtain ⟨n, rfl⟩ := Nat.exists_eq_succ_of_ne_zero (Nat.ne_of_gt hn)
      simp [readTail, hright.1]
  | cons x xs ih =>
      obtain ⟨n, rfl⟩ := Nat.exists_eq_succ_of_ne_zero (Nat.ne_of_gt (Nat.zero_lt_of_lt hn))
      have hstop : Stops ((xs.map w).flatMap (fun w => ',' :: ' ' :: w) ++ right :: rest) := by
        cases xs with
        | nil => exact stops_cons.mpr hright.2
        | cons y ys => exact stops_cons.mpr (by decide)
      have hx := hpart x (List.mem_cons_self ..) _ hstop
      have hxs := ih (fun y hy => hpart y (List.mem_cons_of_mem _ hy))
        (Nat.lt_of_succ_lt_succ hn)
      simp only [List.map_cons, List.flatMap_cons, List.cons_append, List.append_assoc,
        readTail, hx, hxs, Option.bind_eq_bind, Option.bind_some, Option.pure_def]

/-- The parts between brackets. -/
theorem readMany_enclose {left : Char} (hright : right ≠ ',' ∧ right.isDigit = false)
    (hpart : ∀ x ∈ xs, ∀ rest, Stops rest → part (w x ++ rest) = some (x, rest))
    (hhead : ∀ x ∈ xs, ∃ c cs, w x = c :: cs ∧ c ≠ right) (hn : xs.length ≤ n) :
    ∃ cs, enclose left right (xs.map w) ++ rest = left :: cs
      ∧ readMany right part n cs = some (xs, rest) := by
  cases xs with
  | nil => exact ⟨right :: rest, rfl, by simp [readMany]⟩
  | cons x xs =>
      refine ⟨w x ++ ((xs.map w).flatMap (fun w => ',' :: ' ' :: w) ++ right :: rest), ?_, ?_⟩
      · simp [enclose]
      · obtain ⟨c, cs, hw, hc⟩ := hhead x (List.mem_cons_self ..)
        have hstop : Stops
            ((xs.map w).flatMap (fun w => ',' :: ' ' :: w) ++ right :: rest) := by
          cases xs with
          | nil => exact stops_cons.mpr hright.2
          | cons y ys => exact stops_cons.mpr (by decide)
        have hx := hpart x (List.mem_cons_self ..) _ hstop
        have htail : readTail right part n
            ((xs.map w).flatMap (fun w => ',' :: ' ' :: w) ++ right :: rest)
              = some (xs, rest) :=
          readTail_write hright (fun y hy => hpart y (List.mem_cons_of_mem _ hy))
            (Nat.lt_of_succ_le hn)
        have hno : ¬ (w x ++ ((xs.map w).flatMap (fun w => ',' :: ' ' :: w)
            ++ right :: rest)).head? = some right := by
          simp [hw, hc]
        simp only [readMany, hno, if_false, hx, htail, Option.bind_eq_bind, Option.bind_some,
          Option.pure_def]

end

section

variable {doc : Json} {rest : List Char} {n : Nat}

theorem head_write (doc : Json) :
    ∃ c cs, write doc = c :: cs ∧ c ≠ ']' ∧ c ≠ '\x7d' := by
  cases doc with
  | null => exact ⟨_, _, rfl, by decide, by decide⟩
  | bool b => cases b <;> exact ⟨_, _, rfl, by decide, by decide⟩
  | int n =>
      cases n with
      | ofNat n =>
          cases hxs : Nat.toDigits 10 n with
          | nil => exact absurd hxs Nat.toDigits_ne_nil
          | cons c cs =>
              have hdigit : c.isDigit = true := by
                refine Nat.isDigit_of_mem_toDigits (b := 10) (n := n) (by decide) (by decide) ?_
                simp [hxs]
              refine ⟨c, cs, by rw [write, writeInt, hxs], ?_, ?_⟩
              · rintro rfl; revert hdigit; decide
              · rintro rfl; revert hdigit; decide
      | negSucc n => exact ⟨_, _, by rw [write, writeInt], by decide, by decide⟩
  | float bits => exact ⟨_, _, by rw [write], by decide, by decide⟩
  | str s => exact ⟨_, _, by rw [write, writeString], by decide, by decide⟩
  | list xs => exact ⟨'[', _, by rw [write]; rfl, by decide, by decide⟩
  | dict items => exact ⟨'\x7b', _, by rw [write]; rfl, by decide, by decide⟩

theorem exists_eq_succ (hn : (write doc).length ≤ n) : ∃ m, n = m + 1 := by
  obtain ⟨c, cs, hw, -⟩ := head_write doc
  rw [hw, List.length_cons] at hn
  exact ⟨n - 1, by omega⟩

/-- Each part is shorter than the whole, and there are not more of them. -/
theorem length_enclose (left right : Char) (ws : List (List Char)) :
    ws.length < (enclose left right ws).length
      ∧ ∀ w ∈ ws, w.length < (enclose left right ws).length := by
  have hflat : ∀ ws : List (List Char),
      ws.length ≤ (ws.flatMap fun w => ',' :: ' ' :: w).length
        ∧ ∀ w ∈ ws, w.length ≤ (ws.flatMap fun w => ',' :: ' ' :: w).length := by
    intro ws
    induction ws with
    | nil => simp
    | cons w ws ih =>
        obtain ⟨hlength, hmem⟩ := ih
        simp only [List.flatMap_cons, List.length_append, List.length_cons]
        refine ⟨by omega, List.forall_mem_cons.mpr ⟨by omega, fun v hv => ?_⟩⟩
        have := hmem v hv
        omega
  cases ws with
  | nil => simp [enclose]
  | cons w ws =>
      obtain ⟨hlength, hmem⟩ := hflat ws
      simp only [enclose, List.length_cons, List.length_append, List.length_nil]
      refine ⟨by omega, List.forall_mem_cons.mpr ⟨by omega, fun v hv => ?_⟩⟩
      have := hmem v hv
      omega

theorem readValue_digit {d : Char} {ds : List Char} (h : d.isDigit = true) :
    readValue (n + 1) (d :: ds) = (readNat (d :: ds)).map fun (m, cs) => (.int m, cs) := by
  -- a digit opens nothing else
  simp only [readValue]
  split <;> first | rfl | simp_all [Char.isDigit]

theorem readValue_int (i : Int) (h : Stops rest) :
    readValue (n + 1) (writeInt i ++ rest) = some (.int i, rest) := by
  cases i with
  | negSucc m =>
      have hread := readNat_toDigits (m + 1) h
      simp only [writeInt, List.cons_append, readValue, hread, Option.map_some]
      rfl
  | ofNat m =>
      have hread := readNat_toDigits m h
      cases hxs : Nat.toDigits 10 m with
      | nil => exact absurd hxs Nat.toDigits_ne_nil
      | cons d ds =>
          have hdigit : d.isDigit = true :=
            Nat.isDigit_of_mem_toDigits (b := 10) (n := m) (by decide) (by decide)
              (by simp [hxs])
          rw [hxs, List.cons_append] at hread
          rw [writeInt, hxs, List.cons_append, readValue_digit hdigit, hread]
          rfl

theorem readPair_write {n : Nat} {item : String × Json} (hstop : Stops rest)
    (hvalue : ∀ rest, Stops rest →
      readValue n (write item.2 ++ rest) = some (item.2, rest)) :
    readPair (readValue n) ((writeString item.1 ++ ':' :: ' ' :: write item.2) ++ rest)
      = some (item, rest) := by
  have hkey := readChars_write item.1 (':' :: ' ' :: (write item.2 ++ rest))
  simp [writeString, readPair, hkey, hvalue rest hstop]

/-- **What is written is read.** -/
theorem readValue_write (h : doc.Valid) (hn : (write doc).length ≤ n) (hstop : Stops rest) :
    readValue n (write doc ++ rest) = some (doc, rest) := by
  induction h generalizing n rest with
  | null =>
      obtain ⟨n, rfl⟩ := exists_eq_succ hn
      simp [write, readValue]
  | bool b =>
      obtain ⟨n, rfl⟩ := exists_eq_succ hn
      cases b <;> simp [write, readValue]
  | int i =>
      obtain ⟨n, rfl⟩ := exists_eq_succ hn
      rw [write]
      exact readValue_int i hstop
  | @float bits hnan =>
      obtain ⟨n, rfl⟩ := exists_eq_succ hn
      have hlength := length_hexDigits 16 bits.toNat
      have hread : readHex (hexDigits 16 bits.toNat) = bits.toNat := by
        rw [readHex_hexDigits]
        exact Nat.mod_eq_of_lt (by simpa using bits.isLt)
      have htake : (hexDigits 16 bits.toNat ++ rest).take 16 = hexDigits 16 bits.toNat :=
        List.take_left' hlength
      have hdrop : (hexDigits 16 bits.toNat ++ rest).drop 16 = rest := List.drop_left' hlength
      simp [write, readValue, htake, hdrop, hread, hnan]
  | str s =>
      obtain ⟨n, rfl⟩ := exists_eq_succ hn
      have hread := readChars_write s rest
      simp [write, writeString, readValue, hread]
  | @list xs hxs ih =>
      obtain ⟨n, rfl⟩ := exists_eq_succ hn
      rw [write, writeElems_eq] at hn ⊢
      obtain ⟨hlength, hmem⟩ := length_enclose '[' ']' (xs.map write)
      rw [List.length_map] at hlength
      have hparts : ∀ x ∈ xs, ∀ rest, Stops rest →
          readValue n (write x ++ rest) = some (x, rest) := fun x hx rest hrest =>
        ih x hx (by have := hmem _ (List.mem_map_of_mem hx); omega) hrest
      have hheads : ∀ x ∈ xs, ∃ c cs, write x = c :: cs ∧ c ≠ ']' := by
        intro x _
        obtain ⟨c, cs, hw, hc, -⟩ := head_write x
        exact ⟨c, cs, hw, hc⟩
      obtain ⟨cs, hcs, hread⟩ : ∃ cs, enclose '[' ']' (xs.map write) ++ rest = '[' :: cs
          ∧ readMany ']' (readValue n) n cs = some (xs, rest) :=
        readMany_enclose (by decide) hparts hheads (by omega)
      rw [hcs, readValue, hread]
      rfl
  | @dict items hkeys hitems ih =>
      obtain ⟨n, rfl⟩ := exists_eq_succ hn
      rw [write, writePairs_eq] at hn ⊢
      obtain ⟨hlength, hmem⟩ := length_enclose '\x7b' '\x7d'
        (items.map fun item => writeString item.1 ++ ':' :: ' ' :: write item.2)
      rw [List.length_map] at hlength
      have hparts : ∀ item ∈ items, ∀ rest, Stops rest → readPair (readValue n)
          ((writeString item.1 ++ ':' :: ' ' :: write item.2) ++ rest) = some (item, rest) := by
        intro item hitem rest hrest
        refine readPair_write hrest fun rest hrest => ih item hitem ?_ hrest
        have := hmem _ (List.mem_map_of_mem hitem)
        simp only [List.length_append, List.length_cons] at this
        omega
      obtain ⟨cs, hcs, hread⟩ : ∃ cs, enclose '\x7b' '\x7d' (items.map fun item =>
          writeString item.1 ++ ':' :: ' ' :: write item.2) ++ rest = '\x7b' :: cs
          ∧ readMany '\x7d' (readPair (readValue n)) n cs = some (items, rest) :=
        readMany_enclose (by decide) hparts (fun item _ => ⟨'"', _, rfl, by decide⟩) (by omega)
      rw [hcs, readValue, hread]
      simp [hkeys]

end

/-! ## What is read is valid -/

section

variable {α : Type} {right : Char} {part : List Char → Option (α × List Char)} {P : α → Prop}
  {xs : List α} {n : Nat} {cs rest : List Char}

theorem readTail_forall (hpart : ∀ {cs x rest}, part cs = some (x, rest) → P x)
    (h : readTail right part n cs = some (xs, rest)) : ∀ x ∈ xs, P x := by
  induction n generalizing cs xs rest with
  | zero => cases h
  | succ n ih =>
      rw [readTail.eq_def] at h
      simp only at h
      split at h
      · obtain ⟨⟨x, cs'⟩, hx, h⟩ := Option.bind_eq_some_iff.mp h
        obtain ⟨⟨ys, cs''⟩, hys, h⟩ := Option.bind_eq_some_iff.mp h
        cases h
        exact List.forall_mem_cons.mpr ⟨hpart hx, ih hys⟩
      · split at h
        · cases h
          exact fun _ hin => (List.not_mem_nil hin).elim
        · cases h
      · cases h

theorem readMany_forall (hpart : ∀ {cs x rest}, part cs = some (x, rest) → P x)
    (h : readMany right part n cs = some (xs, rest)) : ∀ x ∈ xs, P x := by
  rw [readMany] at h
  split at h
  · cases h
    exact fun _ hin => (List.not_mem_nil hin).elim
  · obtain ⟨⟨x, cs'⟩, hx, h⟩ := Option.bind_eq_some_iff.mp h
    obtain ⟨⟨ys, cs''⟩, hys, h⟩ := Option.bind_eq_some_iff.mp h
    cases h
    exact List.forall_mem_cons.mpr ⟨hpart hx, readTail_forall hpart hys⟩

end

theorem readPair_valid {value : List Char → Option (Json × List Char)} {cs rest : List Char}
    {item : String × Json} (hvalue : ∀ {cs x rest}, value cs = some (x, rest) → x.Valid)
    (h : readPair value cs = some (item, rest)) : item.2.Valid := by
  unfold readPair at h
  split at h
  · obtain ⟨⟨k, cs'⟩, -, h⟩ := Option.bind_eq_some_iff.mp h
    simp only at h
    split at h
    · obtain ⟨⟨v, cs''⟩, hv, h⟩ := Option.bind_eq_some_iff.mp h
      cases h
      exact hvalue hv
    · cases h
  · cases h

theorem readValue_valid {n : Nat} {cs rest : List Char} {doc : Json}
    (h : readValue n cs = some (doc, rest)) : doc.Valid := by
  induction n generalizing cs doc rest with
  | zero => cases h
  | succ n ih =>
      rw [readValue.eq_def] at h
      simp only at h
      split at h
      · cases h
        exact .null
      · cases h
        exact .bool true
      · cases h
        exact .bool false
      · obtain ⟨_, -, h⟩ := Option.map_eq_some_iff.mp h
        cases h
        exact .str _
      · split at h
        · cases h
        · next hnan =>
            cases h
            exact .float (Bool.eq_false_iff.mpr hnan)
      · obtain ⟨⟨xs, _⟩, hxs, h⟩ := Option.map_eq_some_iff.mp h
        cases h
        exact .list (readMany_forall ih hxs)
      · obtain ⟨⟨items, _⟩, hitems, h⟩ := Option.bind_eq_some_iff.mp h
        simp only at h
        split at h
        · next hkeys =>
            cases h
            exact .dict hkeys (readMany_forall (P := fun item => item.2.Valid)
              (readPair_valid ih) hitems)
        · cases h
      · obtain ⟨_, -, h⟩ := Option.map_eq_some_iff.mp h
        cases h
        exact .int _
      · obtain ⟨_, -, h⟩ := Option.map_eq_some_iff.mp h
        cases h
        exact .int _

/-! ## Documents as bytes -/

theorem ascii_hexDigits (n x : Nat) : ascii (hexDigits n x) := by
  have hdigit : ∀ d < 16, (hexDigit d).toNat < 128 := by decide
  induction n with
  | zero => exact fun _ hin => (List.not_mem_nil hin).elim
  | succ n ih => exact ascii_cons.mpr ⟨hdigit _ (Nat.mod_lt _ (by decide)), ih⟩

theorem ascii_writeChar (c : Char) : ascii (writeChar c) := by
  unfold writeChar
  split
  · next hplain =>
      refine List.forall_mem_singleton.mpr (Nat.lt_of_le_of_lt ?_ (by decide : '~'.toNat < 128))
      simp only [plain, Bool.and_eq_true, decide_eq_true_eq] at hplain
      exact hplain.1.1.2
  · exact ascii_cons.mpr ⟨by decide, ascii_cons.mpr ⟨by decide, ascii_hexDigits _ _⟩⟩

theorem ascii_writeString (s : String) : ascii (writeString s) := by
  refine ascii_cons.mpr ⟨by decide, ascii_append.mpr ⟨fun c hc => ?_, ?_⟩⟩
  · obtain ⟨d, -, hcd⟩ := List.mem_flatMap.mp hc
    exact ascii_writeChar d c hcd
  · exact List.forall_mem_singleton.mpr (by decide)

theorem ascii_toDigits (n : Nat) : ascii (Nat.toDigits 10 n) := by
  intro c hc
  have hdigit := Nat.isDigit_of_mem_toDigits (by decide) (by decide) hc
  simp only [Char.isDigit, Bool.and_eq_true, decide_eq_true_eq] at hdigit
  exact Nat.lt_of_le_of_lt hdigit.2 (by decide)

theorem ascii_enclose {left right : Char} {ws : List (List Char)} (hleft : left.toNat < 128)
    (hright : right.toNat < 128) (h : ∀ w ∈ ws, ascii w) : ascii (enclose left right ws) := by
  cases ws with
  | nil => exact ascii_cons.mpr ⟨hleft, List.forall_mem_singleton.mpr hright⟩
  | cons w ws =>
      refine ascii_cons.mpr ⟨hleft, ascii_append.mpr ⟨h w (List.mem_cons_self ..),
        ascii_append.mpr ⟨fun c hc => ?_, List.forall_mem_singleton.mpr hright⟩⟩⟩
      obtain ⟨v, hv, hcv⟩ := List.mem_flatMap.mp hc
      exact ascii_cons.mpr ⟨by decide, ascii_cons.mpr ⟨by decide,
        h v (List.mem_cons_of_mem _ hv)⟩⟩ c hcv

theorem ascii_write {doc : Json} (h : doc.Valid) : ascii (write doc) := by
  induction h with
  | null => rw [write]; exact ascii_of_all rfl
  | bool b => cases b <;> rw [write] <;> exact ascii_of_all rfl
  | int i =>
      cases i with
      | ofNat n => rw [write]; exact ascii_toDigits n
      | negSucc n => rw [write]; exact ascii_cons.mpr ⟨by decide, ascii_toDigits _⟩
  | float _ => rw [write]; exact ascii_cons.mpr ⟨by decide, ascii_hexDigits _ _⟩
  | str s => rw [write]; exact ascii_writeString s
  | @list xs _ ih =>
      rw [write, writeElems_eq]
      exact ascii_enclose (by decide) (by decide) (List.forall_mem_map.mpr ih)
  | @dict items _ _ ih =>
      rw [write, writePairs_eq]
      refine ascii_enclose (by decide) (by decide)
        (List.forall_mem_map.mpr fun item hitem => ?_)
      exact ascii_append.mpr ⟨ascii_writeString _,
        ascii_cons.mpr ⟨by decide, ascii_cons.mpr ⟨by decide, ih item hitem⟩⟩⟩

/-- `json_dumps(doc).encode()`. -/
def dumps (doc : Json) : Bytes := encode (write doc)

/-- `json_loads(bs.decode())`. -/
def loads (bs : Bytes) : Option Json :=
  match readValue bs.length (decode bs) with
  | some (doc, []) => some doc
  | _ => none

theorem loads_dumps {doc : Json} (h : doc.Valid) : loads (dumps doc) = some doc := by
  have hread : readValue (dumps doc).length (write doc ++ []) = some (doc, []) :=
    readValue_write h (by simp [dumps, encode]) (by simp [Stops])
  rw [List.append_nil] at hread
  rw [loads, dumps, decode_encode (ascii_write h), ← dumps, hread]

theorem loads_valid {bs : Bytes} {doc : Json} (h : loads bs = some doc) : doc.Valid := by
  unfold loads at h
  split at h
  · next hread =>
      cases h
      exact readValue_valid hread
  · cases h

theorem dumps_ne (doc : Json) : dumps doc ≠ [] := by
  obtain ⟨c, cs, hw, -⟩ := head_write doc
  simp [dumps, encode, hw]

end Json

end Python

import Mathlib.Data.List.Induction
import Mathlib.Tactic.Linarith
import Mathlib.Tactic.Ring

/-! EBML, the format Matroska is written in: elements laid end to end, each its ID, its size as a
variable-length integer and its body, which in a master element is elements again. The reader is
strict: a size that could be shorter, or that is all ones (which says the size is unknown), is
refused. -/
namespace Ebml

abbrev Bytes := List UInt8

/-- Big-endian, in that many bytes. -/
def bytesOf : ℕ → ℕ → Bytes
  | 0, _ => []
  | width + 1, value => bytesOf width (value / 256) ++ [UInt8.ofNat (value % 256)]

def valueOf (bytes : Bytes) : ℕ := bytes.foldl (fun value byte => 256 * value + byte.toNat) 0

theorem bytesOf_length (width value : ℕ) : (bytesOf width value).length = width := by
  induction width generalizing value with
  | zero => rfl
  | succ width ih => rw [bytesOf, List.length_append, ih, List.length_singleton]

theorem bytesOf_succ (width value : ℕ) :
    bytesOf (width + 1) value = UInt8.ofNat (value / 256 ^ width % 256) :: bytesOf width value := by
  induction width generalizing value with
  | zero => simp [bytesOf]
  | succ width ih =>
    calc bytesOf (width + 2) value
        = bytesOf (width + 1) (value / 256) ++ [UInt8.ofNat (value % 256)] := rfl
      _ = UInt8.ofNat (value / 256 / 256 ^ width % 256) :: bytesOf (width + 1) value := by
        rw [ih, List.cons_append, bytesOf]
      _ = UInt8.ofNat (value / 256 ^ (width + 1) % 256) :: bytesOf (width + 1) value := by
        rw [Nat.div_div_eq_div_mul, Nat.pow_succ']

theorem valueOf_snoc (bytes : Bytes) (byte : UInt8) :
    valueOf (bytes ++ [byte]) = 256 * valueOf bytes + byte.toNat := by
  rw [valueOf, List.foldl_append]
  rfl

theorem valueOf_bytesOf (width value : ℕ) :
    valueOf (bytesOf width value) = value % 256 ^ width := by
  induction width generalizing value with
  | zero =>
    rw [Nat.pow_zero, Nat.mod_one]
    rfl
  | succ width ih =>
    have hbyte : (UInt8.ofNat (value % 256)).toNat = value % 256 := by
      rw [UInt8.toNat_ofNat']
      omega
    rw [bytesOf, valueOf_snoc, ih, hbyte, Nat.pow_succ', Nat.mod_mul, Nat.add_comm]

/-- How long the variable-length integer is that starts so: a byte for each zero, and one. -/
def widthOf (first : UInt8) : Option ℕ :=
  ((List.range 8).find? fun zeros => 2 ^ (7 - zeros) ≤ first.toNat).map (· + 1)

/-- An element's ID, which keeps its marker. -/
def readId : Bytes → Option (ℕ × Bytes)
  | [] => none
  | first :: rest =>
    (widthOf first).bind fun width =>
      if rest.length < width - 1 then none
      else some (valueOf (first :: rest.take (width - 1)), rest.drop (width - 1))

/-- A size, in the fewest bytes that hold it and not all ones. -/
def readSize : Bytes → Option (ℕ × Bytes)
  | [] => none
  | first :: rest =>
    (widthOf first).bind fun width =>
      let size :=
        first.toNat % 2 ^ (8 - width) * 256 ^ (width - 1) + valueOf (rest.take (width - 1))
      if rest.length < width - 1 then none
      else if size = 2 ^ (7 * width) - 1 then none
      else if 1 < width ∧ size < 2 ^ (7 * (width - 1)) - 1 then none
      else some (size, rest.drop (width - 1))

/-- An element's ID and body, and what comes after it. -/
def readElement (bytes : Bytes) : Option (ℕ × Bytes × Bytes) :=
  (readId bytes).bind fun (id, rest) =>
    (readSize rest).bind fun (size, rest) =>
      if rest.length < size then none else some (id, rest.take size, rest.drop size)

/-- What a size is below. -/
def maxSize : ℕ := 2 ^ 56 - 1

/-- IDs are one to four bytes long, by their first one bit. -/
def ValidId (id : ℕ) : Prop :=
  ∃ width ∈ [1, 2, 3, 4], 2 ^ (7 * width) ≤ id ∧ id < 2 ^ (7 * width + 1)

instance (id : ℕ) : Decidable (ValidId id) :=
  inferInstanceAs (Decidable (∃ width ∈ [1, 2, 3, 4], _))

/-- The marker of a size's width set in its first byte. -/
def marked (width : ℕ) : Bytes → Bytes
  | [] => []
  | first :: rest => UInt8.ofNat (first.toNat ||| 0x80 >>> (width - 1)) :: rest

theorem marked_first : ∀ zeros < 8, ∀ value < 2 ^ (7 - zeros),
    widthOf (UInt8.ofNat (value ||| 0x80 >>> zeros)) = some (zeros + 1) ∧
      (UInt8.ofNat (value ||| 0x80 >>> zeros)).toNat % 2 ^ (7 - zeros) = value := by
  decide +kernel

theorem widthOf_first : ∀ zeros < 8, ∀ value < 2 ^ (8 - zeros), 2 ^ (7 - zeros) ≤ value →
    widthOf (UInt8.ofNat value) = some (zeros + 1) := by
  decide +kernel

theorem readSize_marked {width size : ℕ} (hwidth : 1 ≤ width) (hmax : width ≤ 8)
    (hfits : size < 2 ^ (7 * width) - 1)
    (hfewest : width = 1 ∨ 2 ^ (7 * (width - 1)) - 1 ≤ size) (rest : Bytes) :
    readSize (marked width (bytesOf width size) ++ rest) = some (size, rest) := by
  obtain ⟨zeros, rfl⟩ := Nat.exists_eq_add_of_le' hwidth
  have hzeros : zeros < 8 := by omega
  have hpow : (2 : ℕ) ^ (7 * (zeros + 1)) = 2 ^ (7 - zeros) * 256 ^ zeros := by
    rw [show (256 : ℕ) = 2 ^ 8 from rfl, ← Nat.pow_mul, ← Nat.pow_add]
    congr 1
    omega
  have hfirst : size / 256 ^ zeros < 2 ^ (7 - zeros) := by
    apply Nat.div_lt_of_lt_mul
    rw [Nat.mul_comm, ← hpow]
    omega
  have hless : 2 ^ (7 - zeros) ≤ 2 ^ 7 := Nat.pow_le_pow_right (by decide) (Nat.sub_le _ _)
  have hbyte : (UInt8.ofNat (size / 256 ^ zeros % 256)).toNat = size / 256 ^ zeros := by
    rw [UInt8.toNat_ofNat']
    generalize size / 256 ^ zeros = first at hfirst
    omega
  obtain ⟨hwidthOf, hvalue⟩ := marked_first zeros hzeros _ hfirst
  have hsize : size / 256 ^ zeros * 256 ^ zeros + size % 256 ^ zeros = size := Nat.div_add_mod' _ _
  have hlength := bytesOf_length zeros size
  rw [bytesOf_succ, marked, List.cons_append, readSize, hbyte, Nat.add_sub_cancel, hwidthOf,
    Option.bind_some]
  dsimp only
  rw [Nat.add_sub_cancel, show 8 - (zeros + 1) = 7 - zeros by omega, hvalue,
    List.take_left' hlength, List.drop_left' hlength, valueOf_bytesOf, hsize]
  rw [Nat.add_sub_cancel] at hfewest
  rw [if_neg (by rw [List.length_append]; omega), if_neg (by omega), if_neg (by omega)]

theorem readId_bytesOf {width id : ℕ} (hwidth : 1 ≤ width) (hmax : width ≤ 8)
    (hless : id < 2 ^ (7 * width + 1))
    (hmarked : 2 ^ (7 * width) ≤ id) (rest : Bytes) :
    readId (bytesOf width id ++ rest) = some (id, rest) := by
  obtain ⟨zeros, rfl⟩ := Nat.exists_eq_add_of_le' hwidth
  have hzeros : zeros < 8 := by omega
  have hpow : (2 : ℕ) ^ (7 * (zeros + 1)) = 2 ^ (7 - zeros) * 256 ^ zeros := by
    rw [show (256 : ℕ) = 2 ^ 8 from rfl, ← Nat.pow_mul, ← Nat.pow_add]
    congr 1
    omega
  have hdouble : (2 : ℕ) ^ (8 - zeros) = 2 * 2 ^ (7 - zeros) := by
    rw [← Nat.pow_succ']
    congr 1
    omega
  have hfirst : 2 ^ (7 - zeros) ≤ id / 256 ^ zeros := by
    rw [Nat.le_div_iff_mul_le (Nat.pow_pos (by decide)), ← hpow]
    exact hmarked
  have hbelow : id / 256 ^ zeros < 2 ^ (8 - zeros) := by
    apply Nat.div_lt_of_lt_mul
    rw [hdouble, Nat.mul_comm, Nat.mul_assoc, ← hpow, ← Nat.pow_succ']
    exact hless
  have hbyte : id / 256 ^ zeros % 256 = id / 256 ^ zeros := by
    have hle : 2 ^ (8 - zeros) ≤ 2 ^ 8 := Nat.pow_le_pow_right (by decide) (Nat.sub_le _ _)
    exact Nat.mod_eq_of_lt (by omega)
  have hlength := bytesOf_length zeros id
  have hid : id < 256 ^ (zeros + 1) := by
    rw [show (256 : ℕ) = 2 ^ 8 from rfl, ← Nat.pow_mul]
    exact hless.trans_le (Nat.pow_le_pow_right (by decide) (by omega))
  have hvalue : valueOf (UInt8.ofNat (id / 256 ^ zeros % 256) :: bytesOf zeros id) = id := by
    rw [← bytesOf_succ, valueOf_bytesOf, Nat.mod_eq_of_lt hid]
  rw [bytesOf_succ, List.cons_append, readId, hbyte, widthOf_first zeros hzeros _ hbelow hfirst,
    Option.bind_some, Nat.add_sub_cancel, if_neg (by rw [List.length_append]; omega),
    List.take_left' hlength, List.drop_left' hlength, ← hbyte, hvalue]

theorem readElement_length {bytes body rest : Bytes} {id : ℕ}
    (h : readElement bytes = some (id, body, rest)) :
    body.length + rest.length < bytes.length := by
  obtain ⟨⟨id', after⟩, hid, h⟩ := Option.bind_eq_some_iff.mp h
  obtain ⟨⟨size, after'⟩, hsize, h⟩ := Option.bind_eq_some_iff.mp h
  have hafter : after.length < bytes.length := by
    cases bytes with
    | nil => cases hid
    | cons first bytes =>
      obtain ⟨width, -, hid⟩ := Option.bind_eq_some_iff.mp hid
      obtain ⟨-, heq⟩ := Option.ite_none_left_eq_some.mp hid
      cases heq
      rw [List.length_drop, List.length_cons]
      omega
  have hafter' : after'.length ≤ after.length := by
    cases after with
    | nil => cases hsize
    | cons first after =>
      obtain ⟨width, -, hsize⟩ := Option.bind_eq_some_iff.mp hsize
      obtain ⟨-, hsize⟩ := Option.ite_none_left_eq_some.mp hsize
      obtain ⟨-, hsize⟩ := Option.ite_none_left_eq_some.mp hsize
      obtain ⟨-, heq⟩ := Option.ite_none_left_eq_some.mp hsize
      cases heq
      rw [List.length_drop, List.length_cons]
      omega
  obtain ⟨-, heq⟩ := Option.ite_none_left_eq_some.mp h
  cases heq
  rw [List.length_take, List.length_drop]
  omega

section Trees

/-- An element as read: what a master holds is elements. -/
inductive Node
  | data (id : ℕ) (body : Bytes)
  | master (id : ℕ) (kids : List Node)

section Writing
variable (element : ℕ → Bytes → Bytes)

mutual

def Node.write : Node → Bytes
  | .data id body => element id body
  | .master id kids => element id (writeAll kids)

def writeAll : List Node → Bytes
  | [] => []
  | node :: nodes => node.write ++ writeAll nodes

end

/-- Elements laid end to end from `position` on, each with where it starts. -/
def placed : ℕ → List Node → List (ℕ × Node)
  | _, [] => []
  | position, node :: nodes =>
    (position, node) :: placed (position + (node.write element).length) nodes

/-- A writer of elements that the reader reads back. -/
def Writes : Prop := ∀ id body rest, ValidId id → body.length < maxSize →
  readElement (element id body ++ rest) = some (id, body, rest)

end Writing

section Reading
variable (masters : ℕ → Bool)

/-- The elements some bytes are, `depth` of them in a row or inside each other at most. -/
def readNodes : ℕ → Bytes → Option (List Node)
  | _, [] => some []
  | 0, _ :: _ => none
  | depth + 1, first :: rest =>
    (readElement (first :: rest)).bind fun (id, body, rest) =>
      (if masters id then
          (readNodes depth body).map (Node.master id) else some (.data id body)).bind fun node =>
        (readNodes depth rest).map (node :: ·)

def read (bytes : Bytes) : Option (List Node) := readNodes masters bytes.length bytes

variable (element : ℕ → Bytes → Bytes)

mutual

/-- Elements that can be written and read back: a master where one is expected, and no body too long
for its size. -/
def Node.Fits : Node → Prop
  | .data id body => ValidId id ∧ masters id = false ∧ body.length < maxSize
  | .master id kids =>
    ValidId id ∧ masters id = true ∧ (writeAll element kids).length < maxSize ∧ AllFit kids

def AllFit : List Node → Prop
  | [] => True
  | node :: nodes => node.Fits ∧ AllFit nodes

end

variable {masters element}

theorem allFit_iff {nodes : List Node} :
    AllFit masters element nodes ↔ ∀ node ∈ nodes, node.Fits masters element := by
  induction nodes with
  | nil => simp [AllFit]
  | cons node nodes ih => rw [AllFit, ih, List.forall_mem_cons]

theorem readNodes_write (hwrites : Writes element) {depth : ℕ} {nodes : List Node}
    (hfit : AllFit masters element nodes)
    (hdepth : (writeAll element nodes).length ≤ depth) :
    readNodes masters depth (writeAll element nodes) = some nodes := by
  induction depth generalizing nodes with
  | zero =>
    cases nodes with
    | nil => rfl
    | cons node nodes =>
      -- An element is never empty.
      have hread : ∃ id body, readElement (node.write element ++ writeAll element nodes) =
          some (id, body, writeAll element nodes) := by
        cases node with
        | data id body => exact ⟨id, body, hwrites id body _ hfit.1.1 hfit.1.2.2⟩
        | master id kids => exact ⟨id, writeAll element kids, hwrites id _ _ hfit.1.1 hfit.1.2.2.1⟩
      obtain ⟨id, body, hread⟩ := hread
      have hlength := readElement_length hread
      rw [writeAll] at hdepth
      omega
  | succ depth ih =>
    cases nodes with
    | nil => rfl
    | cons node nodes =>
      obtain ⟨hnode, hnodes⟩ := hfit
      rw [writeAll] at hdepth ⊢
      -- What one element reads as, and what is left of it.
      have hstep : ∀ id body, readElement (node.write element ++ writeAll element nodes) =
          some (id, body, writeAll element nodes) →
          (if masters id then
            (readNodes masters depth body).map (Node.master id) else some (.data id body)) =
            some node →
          readNodes masters (depth + 1) (node.write element ++ writeAll element nodes) =
            some (node :: nodes) := by
        intro id body hread hbody
        have hlength := readElement_length hread
        have hrest := @ih nodes hnodes (by omega)
        obtain ⟨first, bytes, hbytes⟩ :=
          List.exists_cons_of_length_pos (show 0 < _ from Nat.zero_lt_of_lt hlength)
        rw [hbytes] at hread ⊢
        rw [readNodes, hread, Option.bind_some]
        dsimp only
        rw [hbody, Option.bind_some, hrest, Option.map_some]
      cases node with
      | data id body =>
        have hread := hwrites id body (writeAll element nodes) hnode.1 hnode.2.2
        exact hstep id body hread (by rw [hnode.2.1]; rfl)
      | master id kids =>
        obtain ⟨hid, hmaster, hsize, hkids⟩ := hnode
        have hread := hwrites id (writeAll element kids) (writeAll element nodes) hid hsize
        have hlength := readElement_length hread
        rw [Node.write] at hdepth
        apply hstep id (writeAll element kids) hread
        rw [hmaster, if_pos rfl, @ih kids hkids (by omega), Option.map_some]

/-- What is written is read back. -/
theorem read_write (hwrites : Writes element) {nodes : List Node}
    (hfit : AllFit masters element nodes) :
    read masters (writeAll element nodes) = some nodes :=
  readNodes_write hwrites hfit le_rfl

end Reading

section Places
variable {element : ℕ → Bytes → Bytes}

theorem writeAll_append (front nodes : List Node) :
    writeAll element (front ++ nodes) = writeAll element front ++ writeAll element nodes := by
  induction front with
  | nil => rfl
  | cons node front ih => rw [List.cons_append, writeAll, ih, writeAll, List.append_assoc]

theorem placed_append (position : ℕ) (front nodes : List Node) :
    placed element position (front ++ nodes) =
    placed element position front ++
      placed element (position + (writeAll element front).length) nodes := by
  induction front generalizing position with
  | nil => rfl
  | cons node front ih =>
    rw [List.cons_append, placed, ih, placed, writeAll, List.length_append, Nat.add_assoc]
    rfl

/-- An element's bytes are where it is placed. -/
theorem placed_bytes {nodes : List Node} {position : ℕ} {node : Node}
    (h : (position, node) ∈ placed element 0 nodes) :
    node.write element <+: (writeAll element nodes).drop position := by
  -- Where they start does not matter, so the induction is for any.
  suffices hall : ∀ start, (position, node) ∈ placed element start nodes → start ≤ position ∧
      node.write element <+: (writeAll element nodes).drop (position - start) from (hall 0 h).2
  clear h
  induction nodes with
  | nil => simp [placed]
  | cons other nodes ih =>
    intro start hmem
    rcases List.mem_cons.mp hmem with heq | hmem
    · cases heq
      rw [Nat.sub_self, List.drop_zero, writeAll]
      exact ⟨le_rfl, List.prefix_append _ _⟩
    · obtain ⟨hle, hprefix⟩ := ih _ hmem
      have hsplit : position - start =
          (other.write element).length + (position - (start + (other.write element).length)) := by
            omega
      refine ⟨by omega, ?_⟩
      rw [writeAll, hsplit, ← List.drop_drop, List.drop_left]
      exact hprefix

end Places

end Trees

end Ebml

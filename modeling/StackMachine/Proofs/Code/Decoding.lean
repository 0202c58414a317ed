import StackMachine.Compile.Event

/-! # Decoding undoes encoding

Every byte sequence is in exactly one way the encoding of some instructions followed by bytes that
do not start with a complete instruction. `decode` finds these instructions, their offsets and the
reason why the rest is stuck. It recurs on the bytes themselves, so that it computes and that proofs
follow the bytes; listing, check and run have loops of their own, each of which is compared with it.

* **`decode`** — the instructions of a byte sequence, and **`Stop`** — what comes behind them.
* **`locate_append`** — instructions keep their offsets when others follow them, and move by the
  length of those that precede them.
* **`decode_encodeAll`** — decoding the encoding of instructions gives them back, each at its
  offset.
* **`Stuck tail offset stop`** — the bytes `tail`, which start at `offset`, hold no complete
  instruction, and `stop` says why.
* **`exists_encodeAll_append_stuck`** — every byte sequence is an encoding and a stuck tail;
  `decode_of_stuck` is what `decode` makes of it. -/

namespace StackMachine

/-! ## The decoded stream -/

/-- Why decoding **stopped**. -/
inductive Stop where
  /-- All bytes are decoded. -/
  | done
  /-- The byte at an offset is no opcode. -/
  | unknownOpcode (byte : UInt8) (offset : Nat)
  /-- The bytes end inside the instruction at an offset. -/
  | truncated (op : Opcode) (offset : Nat)
deriving DecidableEq

/-- The instruction error behind a stop, if it is one. -/
def Stop.error? : Stop → Option InstrError
  | .done => none
  | .unknownOpcode byte _ => some (.unknownOpcode byte)
  | .truncated op offset => some (.truncated op offset)

/-- A **decoded stream**. -/
structure Decoded where
  /-- The complete instructions, in order. -/
  instrs : List Located
  /-- What comes after them. -/
  stop : Stop
deriving DecidableEq

/-- Decodes the bytes from `offset` on and appends the instructions to those already found. -/
def decodeFrom (offset : Nat) (found : Array Located) : List UInt8 → Decoded
  | [] => ⟨found.toList, .done⟩
  | byte :: rest =>
    match Opcode.ofByte? byte with
    | none => ⟨found.toList, .unknownOpcode byte offset⟩
    | some (.arith op) => decodeFrom (offset + 1) (found.push ⟨offset, .apply op⟩) rest
    | some .constant =>
      match rest with
      | high :: low :: rest' =>
        decodeFrom (offset + 3)
          (found.push ⟨offset, .load (UInt16.ofNat (ofBigEndian [high, low]))⟩) rest'
      | _ => ⟨found.toList, .truncated .constant offset⟩

/-- Decodes a whole byte sequence. -/
def decode (bytes : List UInt8) : Decoded := decodeFrom 0 #[] bytes

/-! ## Instructions and their offsets -/

/-- Locating instructions behind others puts these in front. -/
theorem locateFrom_eq_append (offset : Nat) (found : Array Located) (instrs : List Instr) :
    locateFrom offset found instrs = found.toList ++ locateFrom offset #[] instrs := by
  induction instrs generalizing offset found with
  | nil => simp [locateFrom]
  | cons i rest ih =>
    rw [locateFrom, ih, locateFrom, ih (offset + i.size) (#[].push ⟨offset, i⟩)]
    simp

/-- The first instruction stands at the start and the others after its bytes. -/
theorem locateFrom_cons (offset : Nat) (i : Instr) (rest : List Instr) :
    locateFrom offset #[] (i :: rest) = ⟨offset, i⟩ :: locateFrom (offset + i.size) #[] rest := by
  rw [locateFrom, locateFrom_eq_append]
  rfl

/-- The encoding of a sequence starts with that of its first instruction. -/
theorem encodeAll_cons (i : Instr) (rest : List Instr) :
    encodeAll (i :: rest) = i.encode ++ encodeAll rest :=
  List.flatMap_cons

/-- The length of an encoding is the sum of the sizes. -/
@[simp] theorem length_encodeAll_cons (i : Instr) (rest : List Instr) :
    (encodeAll (i :: rest)).length = i.size + (encodeAll rest).length := by
  rw [encodeAll_cons, List.length_append, Instr.length_encode]

/-- Encodings concatenate. -/
theorem encodeAll_append (first second : List Instr) :
    encodeAll (first ++ second) = encodeAll first ++ encodeAll second :=
  List.flatMap_append

/-- Instructions that follow others are moved by the length of their encoding. -/
theorem locateFrom_append (offset : Nat) (first second : List Instr) :
    locateFrom offset #[] (first ++ second)
      = locateFrom offset #[] first ++
        locateFrom (offset + (encodeAll first).length) #[] second := by
  induction first generalizing offset with
  | nil => rfl
  | cons i rest ih =>
    rw [List.cons_append, locateFrom_cons, locateFrom_cons, ih, length_encodeAll_cons,
      Nat.add_assoc, List.cons_append]

/-- **Offsets of a concatenation**: the second part starts where the bytes of the first one end. -/
theorem locate_append (first second : List Instr) :
    locate (first ++ second) = locate first ++ locateFrom (encodeAll first).length #[] second := by
  rw [locate, locateFrom_append, Nat.zero_add, locate]

/-- **One of several located instructions** is an instruction that stands where the encoding of
those before it ends. -/
theorem exists_of_locateFrom_eq {offset : Nat} {instrs : List Instr} {first rest : List Located}
    {item : Located} (h : locateFrom offset #[] instrs = first ++ item :: rest) :
    ∃ before i after, instrs = before ++ i :: after ∧ first = locateFrom offset #[] before ∧
      item = ⟨offset + (encodeAll before).length, i⟩ := by
  induction instrs generalizing offset first with
  | nil => simp [locateFrom] at h
  | cons i instrs ih =>
    rw [locateFrom_cons] at h
    cases first with
    | nil =>
      obtain ⟨rfl, -⟩ := List.cons.inj h
      exact ⟨[], i, instrs, rfl, rfl, rfl⟩
    | cons head first =>
      obtain ⟨rfl, htail⟩ := List.cons.inj h
      obtain ⟨before, j, after, rfl, rfl, rfl⟩ := ih htail
      refine ⟨i :: before, j, after, rfl, (locateFrom_cons offset i before).symm, ?_⟩
      rw [length_encodeAll_cons, ← Nat.add_assoc]

/-- Locating instructions keeps them. -/
@[simp] theorem map_instr_locateFrom (offset : Nat) (instrs : List Instr) :
    (locateFrom offset #[] instrs).map Located.instr = instrs := by
  induction instrs generalizing offset with
  | nil => rfl
  | cons i rest ih => rw [locateFrom_cons, List.map_cons, ih]

/-- What is read off from located instructions one by one, offsets apart, is read off from the
instructions. -/
theorem map_locate {α : Type} (f : Instr → α) (instrs : List Instr) :
    (locate instrs).map (fun item => f item.instr) = instrs.map f := by
  have hinstrs : ((locate instrs).map Located.instr).map f = instrs.map f := by
    rw [locate, map_instr_locateFrom]
  rwa [List.map_map] at hinstrs

/-- An operation is its opcode byte alone. -/
@[simp] theorem Instr.size_apply (op : Arith) : (Instr.apply op).size = 1 := by
  cases op <;> rfl

/-- An instruction has at least its opcode byte. -/
theorem Instr.size_pos (i : Instr) : 0 < i.size := by
  rcases i with index | (_ | _ | _ | _) <;> exact Nat.succ_pos _

/-- Every instruction starts before the end of the encoding. -/
theorem offset_lt_of_mem_locateFrom {offset : Nat} {instrs : List Instr} {item : Located}
    (h : item ∈ locateFrom offset #[] instrs) :
    item.offset < offset + (encodeAll instrs).length := by
  induction instrs generalizing offset with
  | nil => simp [locateFrom] at h
  | cons i rest ih =>
    rw [locateFrom_cons, List.mem_cons] at h
    rw [length_encodeAll_cons]
    have hpos := i.size_pos
    rcases h with rfl | hrest
    · show offset < _
      omega
    · have hlt := ih hrest
      omega

/-! ## Opcodes and operand bytes -/

/-- The opcode that a byte is recognised as has this byte. -/
theorem Opcode.byte_of_ofByte? {b : UInt8} {op : Opcode} (h : Opcode.ofByte? b = some op) :
    op.byte = b := by
  have hfound := List.find?_some h
  simpa using hfound

/-- The bytes of a load: its opcode and the two halves of its index. -/
theorem Instr.encode_load (index : UInt16) :
    (Instr.load index).encode
      = [Opcode.constant.byte, UInt8.ofNat (index.toNat / 256), UInt8.ofNat index.toNat] := by
  simp [Instr.encode, Instr.opcode, Instr.operands, Opcode.layout, bigEndian, Nat.pow_eq]

/-- The bytes of an operation: its opcode alone. -/
theorem Instr.encode_apply (op : Arith) : (Instr.apply op).encode = [(Opcode.arith op).byte] := by
  simp [Instr.encode, Instr.opcode, Instr.operands]

/-- Two bytes spell the first one times 256 plus the second one. -/
theorem ofBigEndian_pair (high low : UInt8) :
    ofBigEndian [high, low] = 256 * high.toNat + low.toNat := by
  simp [ofBigEndian]

/-- The two halves of an index spell it. -/
theorem ofBigEndian_halves (index : UInt16) :
    UInt16.ofNat (ofBigEndian [UInt8.ofNat (index.toNat / 256), UInt8.ofNat index.toNat])
      = index := by
  have hindex : index.toNat < 65536 := index.toNat_lt_size
  have hvalue : 256 * (index.toNat / 256 % 256) + index.toNat % 256 = index.toNat := by omega
  rw [ofBigEndian_pair, UInt8.toNat_ofNat', UInt8.toNat_ofNat']
  show UInt16.ofNat (256 * (index.toNat / 256 % 256) + index.toNat % 256) = index
  rw [hvalue, UInt16.ofNat_toNat]

/-- The index that two bytes spell is encoded in these two bytes. -/
theorem Instr.encode_load_pair (high low : UInt8) :
    (Instr.load (UInt16.ofNat (ofBigEndian [high, low]))).encode
      = [Opcode.constant.byte, high, low] := by
  -- division and remainder by 256 take the two bytes apart again
  have hhigh : high.toNat < 256 := high.toNat_lt_size
  have hlow : low.toNat < 256 := low.toNat_lt_size
  have hindex : (UInt16.ofNat (256 * high.toNat + low.toNat)).toNat
      = 256 * high.toNat + low.toNat := by
    rw [UInt16.toNat_ofNat']
    exact Nat.mod_eq_of_lt (by omega)
  have hdiv : (256 * high.toNat + low.toNat) / 256 = high.toNat := by omega
  have hbyte : UInt8.ofNat (256 * high.toNat + low.toNat) = low := by
    apply UInt8.toNat_inj.mp
    rw [UInt8.toNat_ofNat']
    show (256 * high.toNat + low.toNat) % 256 = low.toNat
    omega
  rw [Instr.encode_load, ofBigEndian_pair, hindex, hdiv, hbyte, UInt8.ofNat_toNat]

/-! ## Decoding an encoding -/

/-- Decoding takes one encoded instruction off the front. -/
theorem decodeFrom_encode_append (offset : Nat) (found : Array Located) (i : Instr)
    (rest : List UInt8) :
    decodeFrom offset found (i.encode ++ rest)
      = decodeFrom (offset + i.size) (found.push ⟨offset, i⟩) rest := by
  cases i with
  | load index =>
    rw [Instr.encode_load, List.cons_append, decodeFrom.eq_def]
    simp only [Opcode.ofByte?_byte, List.cons_append, List.nil_append, ofBigEndian_halves]
    rfl
  | apply op =>
    rw [Instr.encode_apply, List.cons_append, decodeFrom.eq_def, Instr.size_apply]
    simp only [Opcode.ofByte?_byte, List.nil_append]

/-- Decoding takes a sequence of encoded instructions off the front. -/
theorem decodeFrom_encodeAll_append (offset : Nat) (found : Array Located) (instrs : List Instr)
    (rest : List UInt8) :
    decodeFrom offset found (encodeAll instrs ++ rest)
      = decodeFrom (offset + (encodeAll instrs).length)
        (found ++ (locateFrom offset #[] instrs).toArray) rest := by
  induction instrs generalizing offset found with
  | nil => simp [encodeAll, locateFrom]
  | cons i instrs ih =>
    rw [length_encodeAll_cons, locateFrom_cons, encodeAll_cons, List.append_assoc,
      decodeFrom_encode_append, ih, Nat.add_assoc]
    simp

/-- **Stuck bytes**: `Stuck tail offset stop` says that the bytes `tail` at `offset` start with no
complete instruction, for the reason `stop`. -/
inductive Stuck : List UInt8 → Nat → Stop → Prop where
  /-- There are no bytes left. -/
  | done (offset : Nat) : Stuck [] offset .done
  /-- The first byte is no opcode. -/
  | unknownOpcode {byte : UInt8} (h : Opcode.ofByte? byte = none) (rest : List UInt8)
      (offset : Nat) :
      Stuck (byte :: rest) offset (.unknownOpcode byte offset)
  /-- The operand of a load is incomplete. -/
  | truncated {rest : List UInt8} (h : rest.length < 2) (offset : Nat) :
      Stuck (Opcode.constant.byte :: rest) offset (.truncated .constant offset)

/-- Decoding stops at stuck bytes. -/
theorem decodeFrom_of_stuck {tail : List UInt8} {offset : Nat} {stop : Stop}
    (h : Stuck tail offset stop) (found : Array Located) :
    decodeFrom offset found tail = ⟨found.toList, stop⟩ := by
  cases h with
  | done => rfl
  | unknownOpcode hnone =>
    rw [decodeFrom.eq_def]
    simp only [hnone]
  | @truncated rest hshort =>
    rw [decodeFrom.eq_def]
    simp only [Opcode.ofByte?_byte]
    match rest, hshort with
    | [], _ => rfl
    | [_], _ => rfl

/-- **Decoding an encoding with a stuck tail** gives the instructions back and says why the tail is
stuck. -/
theorem decode_of_stuck {instrs : List Instr} {tail : List UInt8} {stop : Stop}
    (h : Stuck tail (encodeAll instrs).length stop) :
    decode (encodeAll instrs ++ tail) = ⟨locate instrs, stop⟩ := by
  rw [decode, decodeFrom_encodeAll_append, Nat.zero_add, decodeFrom_of_stuck h]
  simp [locate]

/-- **Decoding undoes encoding.** -/
theorem decode_encodeAll (instrs : List Instr) :
    decode (encodeAll instrs) = ⟨locate instrs, .done⟩ := by
  have h := decode_of_stuck (Stuck.done (encodeAll instrs).length)
  rwa [List.append_nil] at h

/-- What decoding finds in any byte sequence: instructions whose encoding starts it, and a stuck
tail. -/
theorem exists_encodeAll_of_decodeFrom (offset : Nat) (found : Array Located) (code : List UInt8) :
    ∃ instrs tail, code = encodeAll instrs ++ tail ∧
      Stuck tail (offset + (encodeAll instrs).length) (decodeFrom offset found code).stop := by
  -- an instruction that is found joins the encoding, and whatever ends the decoding is the tail
  fun_induction decodeFrom offset found code with
  | case1 offset found => exact ⟨[], [], rfl, .done _⟩
  | case2 offset found byte rest hnone => exact ⟨[], byte :: rest, rfl, .unknownOpcode hnone rest _⟩
  | case3 offset found byte rest op hop ih =>
    obtain ⟨instrs, tail, rfl, hstuck⟩ := ih
    have hbyte := Opcode.byte_of_ofByte? hop
    refine ⟨.apply op :: instrs, tail, ?_, ?_⟩
    · rw [← hbyte, encodeAll_cons, Instr.encode_apply]
      rfl
    · rwa [length_encodeAll_cons, Instr.size_apply, ← Nat.add_assoc]
  | case4 offset found byte hop high low rest ih =>
    obtain ⟨instrs, tail, rfl, hstuck⟩ := ih
    have hbyte := Opcode.byte_of_ofByte? hop
    refine ⟨.load (UInt16.ofNat (ofBigEndian [high, low])) :: instrs, tail, ?_, ?_⟩
    · rw [← hbyte, encodeAll_cons, Instr.encode_load_pair]
      rfl
    · rw [length_encodeAll_cons, ← Nat.add_assoc]
      exact hstuck
  | case5 offset found byte rest hop hshort =>
    have hbyte := Opcode.byte_of_ofByte? hop
    refine ⟨[], byte :: rest, rfl, ?_⟩
    rw [← hbyte]
    refine .truncated ?_ offset
    match rest, hshort with
    | [], _ => decide
    | [_], _ => exact Nat.lt_succ_self 1
    | high :: low :: rest', hshort => exact absurd rfl (hshort high low rest')

/-- **Every byte sequence is an encoding and a stuck tail.** -/
theorem exists_encodeAll_append_stuck (code : List UInt8) :
    ∃ instrs tail, code = encodeAll instrs ++ tail ∧
      Stuck tail (encodeAll instrs).length (decode code).stop ∧
        decode code = ⟨locate instrs, (decode code).stop⟩ := by
  obtain ⟨instrs, tail, hcode, hstuck⟩ := exists_encodeAll_of_decodeFrom 0 #[] code
  rw [Nat.zero_add] at hstuck
  refine ⟨instrs, tail, hcode, hstuck, ?_⟩
  have hdecode := decode_of_stuck hstuck
  rw [← hcode] at hdecode
  exact hdecode

end StackMachine

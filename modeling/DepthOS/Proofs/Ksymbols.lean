import DepthOS.Proofs.Seek
import DepthOS.Spec.Ksymbols

/-! The kernel's symbol table: every well-formed map file is loaded line by line, and a
lookup returns the last symbol that fits. -/

namespace DepthOS

open Lib

/-! The map file. -/

/-- A digit, or a letter from `a` to `f`. -/
def IsHex (d : Byte) : Prop := 48 ≤ d.toNat ∧ d.toNat ≤ 57 ∨ 97 ≤ d.toNat ∧ d.toNat ≤ 102

def hexDigitOf (d : Byte) : ℕ := if 97 ≤ d.toNat then d.toNat - 87 else d.toNat - 48

def hexValue (a : ℕ) (ds : List Byte) : ℕ := ds.foldl (fun a d => 16 * a + hexDigitOf d) a

/-- A line of the file: 1 to 8 digits, a type, and a name. -/
structure MapLine where
  digits : List Byte
  type : Byte
  name : List Byte
  pos : digits ≠ []
  le : digits.length ≤ 8
  hex : ∀ d ∈ digits, IsHex d
  short : name.length ≤ 254
  line : (10 : Byte) ∉ name

def MapLine.text (l : MapLine) : List Byte := l.digits ++ 32 :: l.type :: 32 :: l.name

/-- The symbol of a line. Its name is a C string, so it stops where the line has a NUL. -/
def MapLine.symbol (l : MapLine) : KernelSymbol :=
  ⟨hexValue 0 l.digits, l.type, some (l.name.takeWhile (· ≠ 0))⟩

/-- The lines, each with its newline; `last` says whether the last one has it. -/
def mapText (last : Bool) : List MapLine → List Byte
  | [] => []
  | l :: ls => l.text ++ if ls = [] ∧ last = false then [] else 10 :: mapText last ls

theorem hexDigitOf_lt {d : Byte} (h : IsHex d) : hexDigitOf d < 16 := by
  unfold IsHex at h
  unfold hexDigitOf
  split_ifs <;> omega

theorem isHex_ne_space {d : Byte} (h : IsHex d) : d ≠ 32 := by
  rintro rfl
  have : (32 : Byte).toNat = 32 := rfl
  unfold IsHex at h
  omega

theorem parseHex_eq {d : Byte} (h : IsHex d) : parseHex d.toInt = some (hexDigitOf d : ℤ) := by
  unfold IsHex at h
  have hint : d.toInt = d.toNat := BitVec.toInt_eq_toNat_of_lt (by omega)
  unfold parseHex hexDigitOf
  rw [hint, if_neg (by omega)]
  congr 1
  split_ifs <;> omega

theorem hex_step {a v n : ℕ} (hv : v < 16) (h : (a + 1) * 16 ^ (n + 1) ≤ 4294967296) :
    u32 (u32 (a <<< 4) + sizeT v) = 16 * a + v ∧ (16 * a + v + 1) * 16 ^ n ≤ 4294967296 := by
  have hle : (16 * a + v + 1) * 16 ^ n ≤ 4294967296 := by
    calc (16 * a + v + 1) * 16 ^ n ≤ ((a + 1) * 16) * 16 ^ n :=
          Nat.mul_le_mul_right _ (by omega)
      _ = (a + 1) * 16 ^ (n + 1) := by rw [pow_succ]; ring
      _ ≤ 4294967296 := h
  have hone : 16 * a + v + 1 ≤ (16 * a + v + 1) * 16 ^ n :=
    Nat.le_mul_of_pos_right _ (by positivity)
  refine ⟨?_, hle⟩
  rw [Nat.shiftLeft_eq]
  unfold u32 sizeT
  omega

/-! Reading the file. -/

section Load

variable (m : Mem) (rd : Initrd) (inode : ℕ)

/-- The end of the file was not met yet, and `rest` is to come. -/
structure Stands (f : MapFile) (rest : List Byte) : Prop where
  eof : f.eof = false
  le : f.pos ≤ initrdLength m rd inode
  rest : (initrdContents m rd inode).drop f.pos = rest

/-- After a read from where `rest` was to come. -/
def Next (rest : List Byte) (f : MapFile) : Prop :=
  match rest with
  | [] => f.eof = true
  | _ :: rest => Stands m rd inode f rest

variable {m rd inode} {f : MapFile} {rest : List Byte}

theorem Stands.length (h : Stands m rd inode f rest) :
    rest.length = initrdLength m rd inode - f.pos := by
  rw [← h.rest, List.length_drop, initrdContents_length]

theorem readByte_cons (hL : initrdLength m rd inode < 2147483648) {b : Byte}
    (h : Stands m rd inode f (b :: rest)) (old : Byte) :
    (readByte m rd inode old f).r = 1 ∧ (readByte m rd inode old f).byte = b ∧
      Stands m rd inode (readByte m rd inode old f).file rest := by
  obtain ⟨hr, hbytes, -, hoff⟩ := initrdRead_spec hL h.le (fun _ => old) 1
  have hlen := h.length
  rw [List.length_cons] at hlen
  have hone : (initrdfsRead m rd inode (fun _ => old) 1 f.pos).r = 1 := by omega
  have heof : (initrdfsRead m rd inode (fun _ => old) 1 f.pos).eof = false := by
    have hn : (initrdfsRead m rd inode (fun _ => old) 1 f.pos).eof =
        ((initrdfsRead m rd inode (fun _ => old) 1 f.pos).r == 0) := rfl
    rw [hn, hone]
    rfl
  rw [hone, h.rest] at hbytes
  rw [hone] at hoff
  have hbyte : [(initrdfsRead m rd inode (fun _ => old) 1 f.pos).buf 0] = [b] := hbytes
  unfold readByte
  refine ⟨hone, List.singleton_inj.1 hbyte, ⟨?_, ?_, ?_⟩⟩
  · simp [h.eof, heof]
  · dsimp only
    omega
  · dsimp only
    rw [hoff, ← List.drop_drop, h.rest, List.drop_one, List.tail_cons]

theorem readByte_nil (hL : initrdLength m rd inode < 2147483648)
    (h : Stands m rd inode f []) (old : Byte) :
    (readByte m rd inode old f).r = 0 ∧ (readByte m rd inode old f).file.eof = true := by
  obtain ⟨hr, -⟩ := initrdRead_spec hL h.le (fun _ => old) 1
  have hlen := h.length
  rw [List.length_nil] at hlen
  have hzero : (initrdfsRead m rd inode (fun _ => old) 1 f.pos).r = 0 := by omega
  have heof : (initrdfsRead m rd inode (fun _ => old) 1 f.pos).eof =
      ((initrdfsRead m rd inode (fun _ => old) 1 f.pos).r == 0) := rfl
  rw [hzero] at heof
  unfold readByte
  refine ⟨hzero, ?_⟩
  dsimp only
  rw [heof]
  simp

theorem addressLoop_digits (hL : initrdLength m rd inode < 2147483648) {ds : List Byte}
    (hhex : ∀ d ∈ ds, IsHex d) {a fuel : ℕ} (ha : (a + 1) * 16 ^ ds.length ≤ 4294967296)
    (hfuel : ds.length < fuel) (byte : Byte) (h : Stands m rd inode f (ds ++ 32 :: rest)) :
    ∃ f', addressLoop m rd inode fuel a byte f = some ⟨hexValue a ds, 32, f', false⟩ ∧
      Stands m rd inode f' rest := by
  induction ds generalizing a fuel byte f with
  | nil =>
    obtain ⟨fuel, rfl⟩ := Nat.exists_eq_add_of_lt hfuel
    obtain ⟨hr, hb, hs⟩ := readByte_cons hL h byte
    refine ⟨_, ?_, hs⟩
    unfold addressLoop
    dsimp only
    rw [hb, if_neg (by simp)]
    rfl
  | cons d ds ih =>
    obtain ⟨fuel, rfl⟩ := Nat.exists_eq_add_of_lt hfuel
    obtain ⟨hr, hb, hs⟩ := readByte_cons hL h byte
    have hd := hhex d (by simp)
    obtain ⟨hstep, hroom⟩ := hex_step (hexDigitOf_lt hd) ha
    obtain ⟨f', hloop, hs'⟩ := ih (fun x hx => hhex x (by simp [hx])) hroom
      (show ds.length < (d :: ds).length + fuel by rw [List.length_cons]; omega) d hs
    refine ⟨f', ?_, hs'⟩
    unfold addressLoop
    dsimp only
    rw [hb, if_pos ⟨by rw [hr]; decide, isHex_ne_space hd⟩, parseHex_eq hd]
    dsimp only
    rw [hstep]
    exact hloop

/-- Only the end of the file or of a line stops a name. -/
def Ended (tail : List Byte) : Prop := tail = [] ∨ ∃ rest, tail = 10 :: rest

theorem nameLoop_line (hL : initrdLength m rd inode < 2147483648) {tail : List Byte}
    (htail : Ended tail) {name : List Byte} (hline : (10 : Byte) ∉ name) {ptr fuel : ℕ}
    (hptr : ptr + name.length < KSYMBOLS_BUFFER) (hfuel : name.length < fuel) (buffer : Mem)
    (h : Stands m rd inode f (name ++ tail)) :
    ∃ buffer' f', nameLoop m rd inode fuel ptr buffer f = some ⟨ptr + name.length, buffer', f'⟩ ∧
      (∀ k < ptr, buffer' k = buffer k) ∧
      (∀ k < name.length, buffer' (ptr + k) = name.getD k 0) ∧ Next m rd inode tail f' := by
  induction name generalizing ptr fuel buffer f with
  | nil =>
    obtain ⟨fuel, rfl⟩ := Nat.exists_eq_add_of_lt hfuel
    have hstop : ¬ ((readByte m rd inode (buffer ptr) f).r ≠ 0 ∧
        (readByte m rd inode (buffer ptr) f).byte ≠ 10) ∧
        Next m rd inode tail (readByte m rd inode (buffer ptr) f).file := by
      rcases htail with rfl | ⟨rest, rfl⟩
      · obtain ⟨hr, heof⟩ := readByte_nil hL h (buffer ptr)
        exact ⟨fun hne => hne.1 hr, heof⟩
      · obtain ⟨-, hb, hs⟩ := readByte_cons hL h (buffer ptr)
        exact ⟨fun hne => hne.2 hb, hs⟩
    refine ⟨Function.update buffer ptr (readByte m rd inode (buffer ptr) f).byte, _, ?_,
      fun k hk => Function.update_of_ne (by omega) _ _, fun k hk => absurd hk (Nat.not_lt_zero k),
      hstop.2⟩
    unfold nameLoop
    rw [if_pos (show ptr < KSYMBOLS_BUFFER from hptr)]
    dsimp only
    rw [if_neg hstop.1]
    rfl
  | cons b name ih =>
    obtain ⟨fuel, rfl⟩ := Nat.exists_eq_add_of_lt hfuel
    rw [List.length_cons] at hptr
    rw [List.mem_cons, not_or] at hline
    obtain ⟨hr, hb, hs⟩ := readByte_cons hL h (buffer ptr)
    obtain ⟨buffer', f', hloop, hlow, hname, hnext⟩ := ih hline.2
      (show ptr + 1 + name.length < KSYMBOLS_BUFFER by omega)
      (show name.length < (b :: name).length + fuel by rw [List.length_cons]; omega)
      (Function.update buffer ptr b) hs
    refine ⟨buffer', f', ?_, fun k hk => ?_, fun k hk => ?_, hnext⟩
    · unfold nameLoop
      rw [if_pos (by omega)]
      dsimp only
      rw [hb, if_pos ⟨by rw [hr]; decide, Ne.symm hline.1⟩, hloop, List.length_cons]
      congr 2
      omega
    · rw [hlow k (by omega), Function.update_of_ne (by omega)]
    · cases k with
      | zero =>
        rw [Nat.add_zero, hlow ptr (by omega), Function.update_self]
        rfl
      | succ k =>
        rw [← Nat.add_assoc, Nat.add_right_comm]
        exact hname k (Nat.lt_of_succ_lt_succ hk)

theorem Next.eof {f : MapFile} {tail : List Byte} (h : Next m rd inode tail f) :
    f.eof = tail.isEmpty := by
  cases tail with
  | nil => exact h
  | cons b rest => exact Stands.eof h

theorem Stands.skip (hL : initrdLength m rd inode < 2147483648) {b : Byte}
    (h : Stands m rd inode f (b :: rest)) :
    Stands m rd inode { f with pos := u32 (f.pos + 1) } rest := by
  have hlen := h.length
  rw [List.length_cons] at hlen
  have hpos : u32 (f.pos + 1) = f.pos + 1 := u32_of_lt (by omega)
  refine ⟨h.eof, ?_, ?_⟩
  · dsimp only
    omega
  · dsimp only
    rw [hpos, ← List.drop_drop, h.rest, List.drop_one, List.tail_cons]

theorem modify_modify (k : KernelSymbols) (g h : KernelSymbol → KernelSymbol) :
    (k.modify g).modify h = k.modify fun e => h (g e) := by
  simp [KernelSymbols.modify]

/-- A symbol more. -/
def KernelSymbols.push (k : KernelSymbols) (e : KernelSymbol) : KernelSymbols :=
  ⟨Function.update k.table k.length e, k.length + 1⟩

theorem loadEntry_line (hL : initrdLength m rd inode < 2147483648) {tail : List Byte}
    (htail : Ended tail) {type : Byte} {name : List Byte} (hline : (10 : Byte) ∉ name)
    (hshort : name.length ≤ 254) {fuel : ℕ} (hfuel : name.length < fuel) {s : LoadState}
    (h : Stands m rd inode s.file (type :: 32 :: (name ++ tail))) :
    ∃ buffer f', loadEntry m rd inode fuel s = some
        (⟨s.symbols.push ⟨(s.symbols.table s.symbols.length).address, type,
          some (name.takeWhile (· ≠ 0))⟩, buffer, f'⟩, !tail.isEmpty) ∧
      Next m rd inode tail f' := by
  obtain ⟨hr, hb, hs⟩ := readByte_cons hL h (s.symbols.table s.symbols.length).type
  obtain ⟨buffer, f', hloop, -, hname, hnext⟩ := nameLoop_line hL htail hline
    (show 0 + name.length < KSYMBOLS_BUFFER by change _ < 256; omega) hfuel
    (Function.update s.buffer 0 0) (hs.skip hL)
  rw [Nat.zero_add] at hloop
  have hholds : HoldsStr (Function.update buffer name.length 0) 0
      (name.takeWhile (· ≠ 0)) := by
    apply holdsStr_takeWhile
    · intro k hk
      rw [Function.update_of_ne (by omega), hname k hk]
    · rw [Nat.zero_add, Function.update_self]
  have hcut := (List.takeWhile_prefix (l := name) (p := (· ≠ (0 : Byte)))).length_le
  have hdup := strdup_eq hholds
    (show (name.takeWhile (· ≠ 0)).length < KSYMBOLS_BUFFER by change _ < 256; omega)
  refine ⟨Function.update buffer name.length 0, f', ?_, hnext⟩
  unfold loadEntry
  dsimp only
  rw [if_neg (by rw [hr]; decide), hloop]
  dsimp only
  rw [hdup]
  dsimp only
  rw [hnext.eof, hb, modify_modify]
  rfl

theorem loadRound_line (hL : initrdLength m rd inode < 2147483648) {tail : List Byte}
    (htail : Ended tail) (l : MapLine) {fuel : ℕ} (hfuel : l.text.length < fuel) {s : LoadState}
    (hroom : s.symbols.length < MAX_KERNEL_SYMBOLS)
    (h : Stands m rd inode s.file (l.text ++ tail)) :
    ∃ buffer f', loadRound m rd inode fuel s =
        some (⟨s.symbols.push l.symbol, buffer, f'⟩, !tail.isEmpty) ∧
      Next m rd inode tail f' := by
  have hlen : l.text.length = l.digits.length + (l.name.length + 3) := by
    simp [MapLine.text]
  have hval : (0 + 1) * 16 ^ l.digits.length ≤ 4294967296 := by
    calc (0 + 1) * 16 ^ l.digits.length ≤ (0 + 1) * 16 ^ 8 :=
          Nat.mul_le_mul_left _ (Nat.pow_le_pow_right (by norm_num) l.le)
      _ = 4294967296 := by norm_num
  have htext : l.text ++ tail = l.digits ++ 32 :: (l.type :: 32 :: (l.name ++ tail)) := by
    simp [MapLine.text]
  rw [htext] at h
  obtain ⟨f1, hloop, hs⟩ := addressLoop_digits hL l.hex hval
    (show l.digits.length < fuel by omega) (s.buffer 0) h
  obtain ⟨buffer, f', hentry, hnext⟩ := loadEntry_line hL htail l.line l.short
    (show l.name.length < fuel by omega)
    (s := ⟨s.symbols.modify fun e => { e with address := hexValue 0 l.digits },
      Function.update s.buffer 0 32, f1⟩) hs
  refine ⟨buffer, f', ?_, hnext⟩
  unfold loadRound
  rw [if_pos hroom, hloop]
  dsimp only
  rw [if_neg (by simp [hs.eof]), hentry]
  simp [KernelSymbols.push, KernelSymbols.modify, MapLine.symbol]

theorem loadRound_end (hL : initrdLength m rd inode < 2147483648) {fuel : ℕ} (hfuel : 0 < fuel)
    {s : LoadState} (hroom : s.symbols.length < MAX_KERNEL_SYMBOLS)
    (h : Stands m rd inode s.file []) :
    ∃ buffer f', loadRound m rd inode fuel s =
      some (⟨s.symbols.modify fun e => { e with address := 0 }, buffer, f'⟩, false) := by
  obtain ⟨hr, heof⟩ := readByte_nil hL h (s.buffer 0)
  cases fuel with
  | zero => omega
  | succ fuel =>
    have hloop : addressLoop m rd inode (fuel + 1) 0 (s.buffer 0) s.file =
        some ⟨0, (readByte m rd inode (s.buffer 0) s.file).byte,
          (readByte m rd inode (s.buffer 0) s.file).file, false⟩ := by
      unfold addressLoop
      dsimp only
      rw [if_neg (fun hne => hne.1 hr)]
    refine ⟨Function.update s.buffer 0 (readByte m rd inode (s.buffer 0) s.file).byte,
      (readByte m rd inode (s.buffer 0) s.file).file, ?_⟩
    unfold loadRound
    rw [if_pos hroom, hloop]
    dsimp only
    rw [if_pos (Or.inr heof)]

/-- The symbols below `k.length` stay, and those of the lines follow them. -/
structure Loads (k k' : KernelSymbols) (ls : List MapLine) : Prop where
  length : k'.length = k.length + ls.length
  old : ∀ i < k.length, k'.table i = k.table i
  new : ∀ i l, ls[i]? = some l → k'.table (k.length + i) = l.symbol

theorem Loads.cons {k k' : KernelSymbols} {l : MapLine} {ls : List MapLine}
    (h : Loads (k.push l.symbol) k' ls) : Loads k k' (l :: ls) := by
  have hlength : (k.push l.symbol).length = k.length + 1 := rfl
  have hold := h.old
  have hnew := h.new
  rw [hlength] at hold hnew
  refine ⟨?_, fun i hi => ?_, fun i x hi => ?_⟩
  · rw [h.length, hlength, List.length_cons]
    omega
  · rw [hold i (by omega)]
    exact Function.update_of_ne (by omega) _ _
  · cases i with
    | zero =>
      obtain rfl : l = x := Option.some.inj hi
      rw [Nat.add_zero, hold _ (by omega)]
      exact Function.update_self _ _ _
    | succ i =>
      rw [← hnew i x hi]
      congr 1
      omega

theorem loadLoop_lines (hL : initrdLength m rd inode < 2147483648) {last : Bool}
    {ls : List MapLine} {fuel n : ℕ} (hfuel : (mapText last ls).length < fuel)
    (hn : ls.length < n) {s : LoadState}
    (hroom : s.symbols.length + ls.length < MAX_KERNEL_SYMBOLS)
    (h : Stands m rd inode s.file (mapText last ls)) :
    ∃ s', loadLoop m rd inode fuel n s = some s' ∧ Loads s.symbols s'.symbols ls := by
  induction ls generalizing n s with
  | nil =>
    obtain ⟨n, rfl⟩ := Nat.exists_eq_add_of_lt hn
    obtain ⟨buffer, f', hround⟩ := loadRound_end hL hfuel hroom h
    refine ⟨⟨s.symbols.modify fun e => { e with address := 0 }, buffer, f'⟩, ?_,
      ⟨rfl, fun i hi => Function.update_of_ne (by omega) _ _, fun i l hi => ?_⟩⟩
    · unfold loadLoop
      rw [hround]
      rfl
    · exact absurd hi (by simp)
  | cons l ls ih =>
    obtain ⟨n, rfl⟩ := Nat.exists_eq_add_of_lt hn
    rw [List.length_cons] at hroom
    unfold mapText at h hfuel
    rw [List.length_append] at hfuel
    have hended : Ended (if ls = [] ∧ last = false then [] else 10 :: mapText last ls) := by
      split_ifs
      · exact Or.inl rfl
      · exact Or.inr ⟨_, rfl⟩
    obtain ⟨buffer, f', hround, hnext⟩ := loadRound_line hL hended l
      (show l.text.length < fuel by omega) (show s.symbols.length < MAX_KERNEL_SYMBOLS by omega) h
    unfold loadLoop
    rw [hround]
    by_cases hlast : ls = [] ∧ last = false
    · rw [if_pos hlast, hlast.1]
      refine ⟨⟨s.symbols.push l.symbol, buffer, f'⟩, rfl,
        Loads.cons ⟨rfl, fun i hi => rfl, fun i x hi => ?_⟩⟩
      exact absurd hi (by simp)
    · rw [if_neg hlast] at hnext hfuel ⊢
      rw [List.length_cons] at hfuel
      obtain ⟨s', hloop, hloads⟩ := ih (by omega)
        (show ls.length < (l :: ls).length + n by rw [List.length_cons]; omega)
        (s := ⟨s.symbols.push l.symbol, buffer, f'⟩)
        (show s.symbols.length + 1 + ls.length < MAX_KERNEL_SYMBOLS by omega) hnext
      exact ⟨s', hloop, hloads.cons⟩

end Load

theorem MapLine.text_le (l : MapLine) : l.text.length ≤ 265 := by
  have hlen : l.text.length = l.digits.length + (l.name.length + 3) := by
    simp [MapLine.text]
  have hdigits := l.le
  have hname := l.short
  omega

theorem mapText_le (last : Bool) (ls : List MapLine) :
    (mapText last ls).length ≤ 266 * ls.length := by
  induction ls with
  | nil => simp [mapText]
  | cons l ls ih =>
    have hl := l.text_le
    unfold mapText
    rw [List.length_append, List.length_cons]
    split_ifs
    · rw [List.length_nil]
      omega
    · rw [List.length_cons]
      omega

theorem lines_le (last : Bool) (ls : List MapLine) : ls.length ≤ (mapText last ls).length := by
  induction ls with
  | nil => exact Nat.zero_le _
  | cons l ls ih =>
    unfold mapText MapLine.text
    simp only [List.length_append, List.length_cons]
    split_ifs with hlast
    · rw [hlast.1, List.length_nil]
      omega
    · rw [List.length_cons]
      omega

section File

variable {m : Mem} {rd : Initrd} {path : List Byte} {inode fuel : ℕ} {ls : List MapLine}
  {last : Bool}

/-- Opening leaves the file at its start, and so does the seek, even where it fails. -/
theorem seek_start (m : Mem) (rd : Initrd) (inode : ℕ) :
    (initrdfsSeek m rd inode 0 0 SEEK_SET).pos = 0 := by
  unfold initrdfsSeek
  rw [seek_set_eq]
  unfold vfsSetpos
  split_ifs <;> rfl

theorem ksymbolsLoadFile_lines (hcount : ls.length < MAX_KERNEL_SYMBOLS)
    (hopen : initrdfsOpen m rd path = some inode)
    (hfile : initrdContents m rd inode = mapText last ls)
    (hfuel : (mapText last ls).length < fuel) (buffer : Mem) (k : KernelSymbols) :
    ∃ k', ksymbolsLoadFile fuel m rd path buffer k = some ((ls.length : ℤ), k') ∧
      Loads ⟨k.table, 0⟩ k' ls := by
  have hle := mapText_le last ls
  have hlen : initrdLength m rd inode = (mapText last ls).length := by
    rw [← hfile, initrdContents_length]
  have hL : initrdLength m rd inode < 2147483648 := by
    change ls.length < 3072 at hcount
    omega
  have hlines : ls.length < fuel := lt_of_le_of_lt (lines_le last ls) hfuel
  have hstart : Stands m rd inode ⟨(initrdfsSeek m rd inode 0 0 SEEK_SET).pos, false⟩
      (mapText last ls) := by
    rw [seek_start]
    exact ⟨rfl, Nat.zero_le _, hfile⟩
  obtain ⟨s', hloop, hloads⟩ := loadLoop_lines hL hfuel hlines
    (s := ⟨{ k with length := 0 }, buffer, _⟩)
    (show 0 + ls.length < MAX_KERNEL_SYMBOLS by omega) hstart
  refine ⟨s'.symbols, ?_, hloads⟩
  unfold ksymbolsLoadFile
  rw [hopen]
  dsimp only
  rw [hloop, Option.map_some, hloads.length, Nat.zero_add]

end File

/-! Lookups. -/

/-- The greatest number below `n` with the property, if there is one. -/
def LastWith (P : ℕ → Prop) (n : ℕ) : Option ℕ → Prop
  | none => ∀ i < n, ¬ P i
  | some i => (i < n ∧ P i) ∧ ∀ j, i < j → j < n → ¬ P j

theorem lookupLoop_last (k : KernelSymbols) (addr : ℕ) (precise : Bool) (n : ℕ) :
    LastWith (fun i => addr = (k.table i).address ∨
      precise = false ∧ addr > (k.table i).address) n (lookupLoop k addr precise n) := by
  induction n with
  | zero => exact fun i hi => absurd hi (Nat.not_lt_zero i)
  | succ n ih =>
    unfold lookupLoop
    split_ifs with hfits
    · exact ⟨⟨Nat.lt_succ_self n, hfits⟩, fun j hj hlt => absurd hlt (by omega)⟩
    · cases hfound : lookupLoop k addr precise n with
      | none =>
        rw [hfound] at ih
        intro i hi
        rcases Nat.lt_succ_iff_lt_or_eq.1 hi with hlt | rfl
        · exact ih i hlt
        · exact hfits
      | some i =>
        rw [hfound] at ih
        refine ⟨⟨Nat.lt_succ_of_lt ih.1.1, ih.1.2⟩, fun j hj hlt => ?_⟩
        rcases Nat.lt_succ_iff_lt_or_eq.1 hlt with hlt | rfl
        · exact ih.2 j hj hlt
        · exact hfits

theorem LastWith.congr {P Q : ℕ → Prop} {n : ℕ} {r : Option ℕ} (h : LastWith P n r)
    (hPQ : ∀ i < n, P i ↔ Q i) : LastWith Q n r := by
  cases r with
  | none => exact fun i hi hQ => h i hi ((hPQ i hi).2 hQ)
  | some i =>
    obtain ⟨⟨hlt, hP⟩, hrest⟩ := h
    exact ⟨⟨hlt, (hPQ i hlt).1 hP⟩, fun j hj hjn hQ => hrest j hj hjn ((hPQ j hjn).2 hQ)⟩

/-- The address on line `i`. -/
def addressAt (ls : List MapLine) (i : ℕ) : ℕ := (ls[i]?.map fun l => l.symbol.address).getD 0

theorem lookup_lines {k k' : KernelSymbols} {ls : List MapLine} (h : Loads k k' ls)
    (hk : k.length = 0) (a : ℕ) :
    LastWith (fun i => addressAt ls i ≤ a) ls.length (ksymbolsLookup k' a false) ∧
    LastWith (fun i => addressAt ls i = a) ls.length (ksymbolsLookup k' a true) := by
  have hlength := h.length
  have hnew := h.new
  rw [hk] at hlength hnew
  rw [Nat.zero_add] at hlength
  have haddr : ∀ i < ls.length, (k'.table i).address = addressAt ls i := by
    intro i hi
    have hget := List.getElem?_eq_getElem hi
    have hentry := hnew i _ hget
    rw [Nat.zero_add] at hentry
    rw [hentry, addressAt, hget]
    rfl
  unfold ksymbolsLookup
  rw [hlength]
  constructor
  · apply (lookupLoop_last k' a false ls.length).congr
    intro i hi
    rw [haddr i hi]
    simp only [true_and]
    omega
  · apply (lookupLoop_last k' a true ls.length).congr
    intro i hi
    rw [haddr i hi]
    simp [eq_comm]

section Symbols

variable {m : Mem} {rd : Initrd} {path : List Byte} {inode fuel : ℕ} {ls : List MapLine}
  {last : Bool}

/-- For every map file of fewer than 3072 lines, the last with or without its newline: the
loader returns their number and stores their symbols in order, and each lookup returns the
last symbol that fits. No order of the addresses is needed. -/
theorem ksymbols_loaded (hcount : ls.length < 3072) (hopen : initrdfsOpen m rd path = some inode)
    (hfile : initrdContents m rd inode = mapText last ls)
    (hfuel : (mapText last ls).length < fuel) (buffer : Mem) (k : KernelSymbols) :
    ∃ k', ksymbolsLoadFile fuel m rd path buffer k = some ((ls.length : ℤ), k') ∧
      k'.length = ls.length ∧ (∀ i l, ls[i]? = some l → k'.table i = l.symbol) ∧
      ∀ a, LastWith (fun i => addressAt ls i ≤ a) ls.length (ksymbolsLookup k' a false) ∧
        LastWith (fun i => addressAt ls i = a) ls.length (ksymbolsLookup k' a true) := by
  obtain ⟨k', hload, hloads⟩ := ksymbolsLoadFile_lines hcount hopen hfile hfuel buffer k
  refine ⟨k', hload, ?_, fun i l hi => ?_, lookup_lines hloads rfl⟩
  · rw [hloads.length]
    exact Nat.zero_add _
  · have hentry := hloads.new i l hi
    rwa [Nat.zero_add] at hentry

end Symbols

/-- A ramdisk of one file `m` that holds `text`. -/
def mapDisk (text : List Byte) : Mem :=
  ofBytes (109 :: List.replicate 59 0 ++ le32 text.length ++ le32 0 ++ text)

/-- The line `1 t A`. -/
def firstLine : MapLine :=
  ⟨[49], 116, [65], by decide, by decide, by simp [IsHex], by decide, by decide⟩

/-- The line `f d B`. -/
def secondLine : MapLine :=
  ⟨[102], 100, [66], by decide, by decide, by simp [IsHex], by decide, by decide⟩

/-- Two lines, the last one without its newline. -/
theorem ksymbols_loaded_two : ∃ k', ksymbolsLoadFile 12
    (mapDisk [49, 32, 116, 32, 65, 10, 102, 32, 100, 32, 66]) ⟨1, 0, 68⟩ [109] (fun _ => 7)
      ⟨fun _ => ⟨0, 0, none⟩, 5⟩ = some (2, k') ∧
    k'.table 1 = ⟨15, 100, some [66]⟩ ∧ ksymbolsLookup k' 14 false = some 0 := by
  obtain ⟨k', hload, -, htable, hlookup⟩ := ksymbols_loaded
    (m := mapDisk [49, 32, 116, 32, 65, 10, 102, 32, 100, 32, 66])
    (show [firstLine, secondLine].length < 3072 by decide)
    (show initrdfsOpen _ ⟨1, 0, 68⟩ [109] = some 0 by decide)
    (show _ = mapText false [firstLine, secondLine] by decide)
    (show _ < 12 by decide) (fun _ => 7) ⟨fun _ => ⟨0, 0, none⟩, 5⟩
  refine ⟨k', hload, ?_, ?_⟩
  · rw [htable 1 secondLine rfl]
    decide
  · have hlast := (hlookup 14).1
    have h0 : addressAt [firstLine, secondLine] 0 = 1 := by decide
    have h1 : addressAt [firstLine, secondLine] 1 = 15 := by decide
    cases hfound : ksymbolsLookup k' 14 false with
    | none =>
      rw [hfound] at hlast
      have hno : ¬ addressAt [firstLine, secondLine] 0 ≤ 14 := hlast 0 (by decide)
      omega
    | some i =>
      rw [hfound] at hlast
      obtain ⟨⟨hlt, hle⟩, -⟩ := hlast
      change i < 2 at hlt
      have hi : i = 0 ∨ i = 1 := by omega
      rcases hi with rfl | rfl
      · rfl
      · rw [h1] at hle
        omega

/-- The line `1 t A`, a NUL, and `B`. -/
def nulLine : MapLine :=
  ⟨[49], 116, [65, 0, 66], by decide, by decide, by simp [IsHex], by decide, by decide⟩

/-- A name with a NUL is cut there. -/
theorem ksymbols_name_cut : ¬ ∀ (ls : List MapLine) (last : Bool) m rd path inode fuel buffer k,
    ls.length < 3072 → initrdfsOpen m rd path = some inode →
    initrdContents m rd inode = mapText last ls → (mapText last ls).length < fuel →
    ∃ k', ksymbolsLoadFile fuel m rd path buffer k = some ((ls.length : ℤ), k') ∧
      ∀ i l, ls[i]? = some l → k'.table i = ⟨hexValue 0 l.digits, l.type, some l.name⟩ := by
  intro h
  have hopen : initrdfsOpen (mapDisk [49, 32, 116, 32, 65, 0, 66]) ⟨1, 0, 68⟩ [109] = some 0 := by
    decide
  have hfile : initrdContents (mapDisk [49, 32, 116, 32, 65, 0, 66]) ⟨1, 0, 68⟩ 0 =
      mapText false [nulLine] := by
    decide
  have hcount : [nulLine].length < MAX_KERNEL_SYMBOLS := by decide
  have hfuel : (mapText false [nulLine]).length < 8 := by decide
  obtain ⟨k', hload, hclaim⟩ := h [nulLine] false _ _ _ _ 8 (fun _ => 0)
    ⟨fun _ => ⟨0, 0, none⟩, 0⟩ hcount hopen hfile hfuel
  obtain ⟨k'', hload', hloads⟩ := ksymbolsLoadFile_lines hcount hopen hfile hfuel (fun _ => 0)
    ⟨fun _ => ⟨0, 0, none⟩, 0⟩
  obtain rfl : k' = k'' := congrArg Prod.snd (Option.some.inj (hload.symm.trans hload'))
  have hname := (hclaim 0 nulLine rfl).symm.trans (hloads.new 0 nulLine rfl)
  have hsame : nulLine.name = nulLine.name.takeWhile (· ≠ 0) :=
    Option.some.inj (congrArg KernelSymbol.name hname)
  exact absurd hsame (by decide)

end DepthOS

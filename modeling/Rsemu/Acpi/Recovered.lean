import Rsemu.Acpi.Grammar

/-!
# What is written is read back

Each builder's bytes are read back by the reader of its production, whatever follows them, so a
term's end is where its sibling starts. A whole tree is then read back by induction on the fuel,
one case per constructor: the elements of a package and the terms in a scope are shorter than
what holds them.
-/

namespace Rsemu.Acpi

open Codec (Bytes Reads leBytes length_leBytes reads_readLe reads_take toEnd toEnd_flatMap
  length_le_flatMap)

attribute [local instance (high)] List.decidableBAll Option.decidableForallMem

theorem reads_byte (b : UInt8) : Reads byte [b] b := fun _ => rfl

theorem reads_cons {α : Type} {f : UInt8 → Parser α} {b : UInt8} {bs : Bytes} {a : α}
    (h : Reads (f b) bs a) : Reads (byte >>= f) (b :: bs) a :=
  (reads_byte b).bind h

theorem lead_toNat {follow : Nat} (h : follow ≤ 3) (total : Nat) :
    (UInt8.ofNat (follow <<< 6 ||| total &&& 0x0f)).toNat = follow * 64 + total % 16 := by
  have hmask : total &&& 0x0f = total % 16 := Nat.and_two_pow_sub_one_eq_mod total 4
  have hor : follow <<< 6 ||| total % 16 = follow <<< 6 + total % 16 :=
    (Nat.shiftLeft_add_eq_or_of_lt (show total % 16 < 2 ^ 6 by omega) follow).symm
  rw [hmask, hor, Nat.shiftLeft_eq, UInt8.toNat_ofNat']
  omega

theorem reads_pkgLength {len : Nat} (h : len + pkgWidth len ≤ 0x0fffffff) :
    Reads readPkgLength (pkgLength len) (len + pkgWidth len, pkgWidth len) := by
  have hcap := le_capacity_pkgWidth h
  have hpos := pkgWidth_pos len
  unfold pkgLength
  by_cases hone : pkgWidth len = 1
  · rw [hone, capacity_one] at hcap
    rw [hone]
    have htotal : (UInt8.ofNat (len + 1)).toNat = len + 1 := by
      rw [UInt8.toNat_ofNat']
      omega
    refine reads_cons ?_
    rw [htotal, if_pos (by omega)]
    exact Reads.pure _
  · rw [if_neg hone]
    obtain ⟨follow, hfollow⟩ : ∃ follow, pkgWidth len = follow + 1 :=
      ⟨pkgWidth len - 1, by omega⟩
    rw [hfollow] at hcap ⊢
    have hbound : 1 ≤ follow ∧ follow ≤ 3 := by omega
    have hhigh : (len + (follow + 1)) >>> 4 < 256 ^ follow := by
      have := capacity_succ hbound
      omega
    have hlead := lead_toNat hbound.2 (len + (follow + 1))
    rw [Nat.add_sub_cancel]
    refine reads_cons ?_
    rw [hlead]
    have hfield : (follow * 64 + (len + (follow + 1)) % 16) / 64 = follow := by omega
    rw [hfield, if_neg (by omega), if_neg (by omega)]
    have hread := (reads_readLe (fun _ _ => ()) hhigh).map fun high =>
      ((follow * 64 + (len + (follow + 1)) % 16) % 16 + 16 * high, follow + 1)
    have hvalue : (follow * 64 + (len + (follow + 1)) % 16) % 16
        + 16 * ((len + (follow + 1)) >>> 4) = len + (follow + 1) := by
      omega
    rwa [hvalue] at hread

theorem shortest_pkgWidth (len : Nat) : Shortest (len + pkgWidth len) (pkgWidth len) := by
  intro width hwidth
  have := capacity_of_lt_pkgWidth hwidth
  omega

theorem reads_packaged {α : Type} {p : Parser α} {body : Bytes} {a : α}
    (h : p body = .ok (a, [])) (strict : Bool)
    (hsize : body.length + pkgWidth body.length ≤ 0x0fffffff) :
    Reads (readPackaged strict p) (packaged body) a := by
  refine (reads_pkgLength hsize).bind ?_
  have hgood : ¬ (body.length + pkgWidth body.length < pkgWidth body.length ∨
      strict = true ∧ ¬ Shortest (body.length + pkgWidth body.length) (pkgWidth body.length)) := by
    rintro (hlt | ⟨-, hlong⟩)
    · omega
    · exact hlong (shortest_pkgWidth body.length)
  rw [if_neg hgood, Nat.add_sub_cancel]
  exact Reads.within h _ _

def pad (seg : Bytes) : Bytes := seg ++ List.replicate (4 - seg.length) 0x5f

/-- At most four name characters, the first of them a lead character. -/
def LegalSeg (seg : Bytes) : Prop :=
  seg.length ≤ 4 ∧ (∀ c ∈ seg.head?, LeadNameChar c) ∧ ∀ c ∈ seg, NameChar c

instance (seg : Bytes) : Decidable (LegalSeg seg) :=
  inferInstanceAs (Decidable (_ ∧ _ ∧ _))

theorem nameSeg_eq {seg : Bytes} (h : seg.length ≤ 4) : nameSeg seg = pad seg := by
  unfold nameSeg pad
  rw [List.take_append, List.take_of_length_le h, List.take_replicate, min_eq_left]
  omega

theorem LegalSeg.pad {seg : Bytes} (h : LegalSeg seg) : ∃ lead more, pad seg = lead :: more ∧
    more.length = 3 ∧ LeadNameChar lead ∧ ∀ c ∈ more, NameChar c := by
  obtain ⟨hlen, hlead, hall⟩ := h
  have hunderscore : LeadNameChar 0x5f := by decide
  cases seg with
  | nil => exact ⟨0x5f, [0x5f, 0x5f, 0x5f], rfl, rfl, hunderscore, by decide⟩
  | cons c cs =>
    rw [List.length_cons] at hlen
    refine ⟨c, cs ++ List.replicate (4 - (cs.length + 1)) 0x5f, rfl, ?_, hlead c rfl, ?_⟩
    · rw [List.length_append, List.length_replicate]
      omega
    · intro d hd
      rcases List.mem_append.mp hd with hd | hd
      · exact hall d (List.mem_cons_of_mem c hd)
      · rw [List.eq_of_mem_replicate hd]
        exact .inl hunderscore

theorem reads_segAfter {lead : UInt8} {more : Bytes} (hlen : more.length = 3)
    (hlead : LeadNameChar lead) (hmore : ∀ c ∈ more, NameChar c) :
    Reads (readSegAfter lead) more (lead :: more) := by
  have htake := reads_take (fun _ _ => ()) more
  rw [hlen] at htake
  have hread : Reads (readSegAfter lead) (more ++ []) (lead :: more) := by
    refine htake.bind ?_
    rw [if_pos ⟨hlead, hmore⟩]
    exact Reads.pure _
  rwa [List.append_nil] at hread

theorem reads_segs {segs : List Bytes} (h : ∀ seg ∈ segs, LegalSeg seg) :
    Reads (readSegs segs.length) (segs.map pad).flatten (segs.map pad) := by
  induction segs with
  | nil => exact Reads.pure _
  | cons seg segs ih =>
    obtain ⟨lead, more, hpad, hlen, hlead, hmore⟩ := (h seg List.mem_cons_self).pad
    have htail := (ih fun s hs => h s (List.mem_cons_of_mem seg hs)).map fun segs' =>
      (lead :: more) :: segs'
    rw [List.map_cons, List.flatten_cons, hpad, List.length_cons, List.cons_append]
    exact reads_cons ((reads_segAfter hlen hlead hmore).bind htail)

theorem LeadNameChar.ne {c : UInt8} (h : LeadNameChar c) :
    c ≠ 0 ∧ c ≠ dualNamePrefix ∧ c ≠ multiNamePrefix ∧ c ≠ rootChar ∧ c ≠ 0x5e := by
  refine ⟨?_, ?_, ?_, ?_, ?_⟩
  all_goals
    rintro rfl
    revert h
    decide

/-- A path with a segment at least and 255 at most. -/
structure LegalPath (path : Bytes) : Prop where
  count : (segments path).length ≤ 255
  segs : ∀ seg ∈ segments path, LegalSeg seg

def Name.ofPath (path : Bytes) : Name := ⟨(stripRoot path).1, 0, (segments path).map pad⟩

theorem reads_namePath {segs : List Bytes} (hne : segs ≠ []) (hcount : segs.length ≤ 255)
    (h : ∀ seg ∈ segs, LegalSeg seg) :
    Reads readNamePath (segCount segs.length ++ (segs.map pad).flatten) (segs.map pad) := by
  match segs, hne with
  | [seg], _ =>
    obtain ⟨lead, more, hpad, hlen, hlead, hmore⟩ := (h seg List.mem_cons_self).pad
    obtain ⟨hnull, hdual, hmulti, -⟩ := hlead.ne
    have hread := (reads_segAfter hlen hlead hmore).map fun seg => [seg]
    rw [List.map_singleton, hpad, List.flatten_singleton]
    refine reads_cons ?_
    rwa [if_neg hnull, if_neg hdual, if_neg hmulti]
  | [s, t], _ =>
    have hread := reads_segs h
    refine reads_cons ?_
    exact hread
  | s :: t :: u :: segs, _ =>
    have hread := reads_segs h
    have hbyte : (UInt8.ofNat (s :: t :: u :: segs).length).toNat
        = (s :: t :: u :: segs).length := by
      rw [UInt8.toNat_ofNat']
      omega
    have hpos : UInt8.ofNat (s :: t :: u :: segs).length ≠ 0 := by
      intro hzero
      rw [hzero] at hbyte
      cases hbyte
    refine reads_cons ?_
    refine reads_cons ?_
    rw [if_neg hpos, hbyte]
    exact hread

theorem segCount_first {segs : List Bytes} (hne : segs ≠ []) (h : ∀ seg ∈ segs, LegalSeg seg) :
    ∃ b bs, segCount segs.length ++ (segs.map pad).flatten = b :: bs ∧ b ≠ rootChar ∧ b ≠ 0x5e := by
  match segs, hne with
  | [seg], _ =>
    obtain ⟨lead, more, hpad, -, hlead, -⟩ := (h seg List.mem_cons_self).pad
    refine ⟨lead, more, ?_, hlead.ne.2.2.2⟩
    rw [List.map_singleton, hpad, List.flatten_singleton]
    rfl
  | [s, t], _ => exact ⟨dualNamePrefix, _, rfl, by decide, by decide⟩
  | s :: t :: u :: segs, _ => exact ⟨multiNamePrefix, _, rfl, by decide, by decide⟩

theorem reads_prefix_root : Reads readPrefix [rootChar] (true, 0) := fun _ => rfl

theorem readPrefix_plain {b : UInt8} (hroot : b ≠ rootChar) (hcaret : b ≠ 0x5e) (rest : Bytes) :
    readPrefix (b :: rest) = .ok ((false, 0), b :: rest) := by
  have hno : ¬ (decide (b = 0x5e) = true) := by simpa using hcaret
  rw [readPrefix, if_neg hroot,
    List.takeWhile_cons_of_neg (p := fun c : UInt8 => decide (c = 0x5e)) hno,
    List.dropWhile_cons_of_neg (p := fun c : UInt8 => decide (c = 0x5e)) hno]
  rfl

theorem reads_name {path : Bytes} (h : LegalPath path) :
    Reads readName (nameString path) (Name.ofPath path) := by
  have hne : segments path ≠ [] := List.splitOn_ne_nil _ _
  have hsegs : (segments path).map nameSeg = (segments path).map pad :=
    List.map_congr_left fun seg hseg => nameSeg_eq (h.segs seg hseg).1
  have hpath := (reads_namePath hne h.count h.segs).map fun segs =>
    Name.mk (stripRoot path).1 0 segs
  unfold nameString Name.ofPath
  dsimp only
  rw [hsegs, List.length_map]
  cases hroot : (stripRoot path).1 with
  | true =>
    rw [hroot] at hpath
    exact reads_prefix_root.bind hpath
  | false =>
    rw [hroot] at hpath
    obtain ⟨b, bs, heq, hb, hcaret⟩ := segCount_first hne h.segs
    intro rest
    have hrest := hpath rest
    simp only [Bool.false_eq_true, if_false, List.nil_append, heq, List.cons_append] at hrest ⊢
    exact (Codec.run_bind (readPrefix_plain hb hcaret _) _).trans hrest

theorem reads_wide {strict : Bool} {n below : Nat} {value : UInt64}
    (hbelow : below < value.toNat) (hfits : value.toNat < 256 ^ n) :
    Reads (readWide strict n below) (leBytes n value.toNat) value := by
  have hread : Reads (readWide strict n below) (leBytes n value.toNat ++ []) value := by
    refine (reads_readLe (fun _ _ => ()) hfits).bind ?_
    have hgood : ¬ (strict = true ∧ value.toNat ≤ below) := fun h => by omega
    rw [if_neg hgood, UInt64.ofNat_toNat]
    exact Reads.pure _
  rwa [List.append_nil] at hread

theorem reads_integer (strict : Bool) (value : UInt64) : ∃ op bs, integer value = op :: bs ∧
    (op ≠ stringPrefix ∧ op ≠ bufferOp ∧ op ≠ packageOp) ∧
    Reads (readInteger strict op) bs value := by
  have hlt := value.toNat_lt
  unfold integer
  dsimp only
  split_ifs with hzero hone hbyte hword hdword
  · obtain rfl : value = 0 := UInt64.toNat_inj.mp hzero
    exact ⟨zeroOp, [], rfl, by decide, Reads.pure _⟩
  · obtain rfl : value = 1 := UInt64.toNat_inj.mp hone
    exact ⟨oneOp, [], rfl, by decide, Reads.pure _⟩
  · exact ⟨bytePrefix, _, rfl, by decide, reads_wide (by omega) (by omega)⟩
  · exact ⟨wordPrefix, _, rfl, by decide, reads_wide (by omega) (by omega)⟩
  · exact ⟨dwordPrefix, _, rfl, by decide, reads_wide (by omega) (by omega)⟩
  · exact ⟨qwordPrefix, _, rfl, by decide, reads_wide (by omega) (by omega)⟩

/-- Non-zero ASCII only. -/
def LegalText (text : Bytes) : Prop := ∀ c ∈ text, c ≠ 0 ∧ c ≤ 0x7f

theorem reads_string {text : Bytes} (h : LegalText text) :
    Reads readString (text ++ [0x00]) text := by
  intro rest
  have htext : ∀ c ∈ text, decide (c ≠ 0) = true := fun c hc => decide_eq_true (h c hc).1
  have htake : (text ++ [0x00] ++ rest).takeWhile (fun c => decide (c ≠ 0)) = text := by
    rw [List.append_assoc, List.takeWhile_append_of_pos htext]
    exact List.append_nil text
  have hdrop : (text ++ [0x00] ++ rest).dropWhile (fun c => decide (c ≠ 0)) = 0x00 :: rest := by
    rw [List.append_assoc, List.dropWhile_append_of_pos htext]
    rfl
  unfold readString
  rw [htake, hdrop, if_pos ⟨by simp, fun c hc => (h c hc).2⟩]
  rfl

theorem readBuffer_written (strict : Bool) {bytes : Bytes} (hsize : bytes.length < 2 ^ 64) :
    readBuffer strict (integer (UInt64.ofNat bytes.length) ++ bytes) = .ok (.buffer bytes, []) := by
  obtain ⟨op, bs, hint, -, hread⟩ := reads_integer strict (UInt64.ofNat bytes.length)
  have hlen : (UInt64.ofNat bytes.length).toNat = bytes.length := by
    exact Nat.mod_eq_of_lt hsize
  have htake := reads_take (fun _ _ => ()) bytes []
  rw [List.append_nil] at htake
  have hgood : ¬ (strict = true ∧ (UInt64.ofNat bytes.length).toNat ≠ bytes.length) :=
    fun h => h.2 hlen
  rw [hint, List.cons_append]
  refine (Codec.run_bind (reads_byte op _) _).trans ?_
  refine (hread.run_bind _ _).trans ?_
  refine (Codec.run_bind (p := Codec.remaining) (a := bytes.length) rfl _).trans ?_
  refine (Codec.run_bind htake _).trans ?_
  rw [if_neg hgood, hlen, Nat.sub_self, List.replicate_zero, List.append_nil]
  rfl

/-- A data object that the grammar has an encoding for. -/
inductive Data.Legal : Data → Prop where
  | integer (value : UInt64) : Data.Legal (.integer value)
  | string {text : Bytes} (h : LegalText text) : Data.Legal (.string text)
  | buffer (bytes : Bytes) : Data.Legal (.buffer bytes)
  | package {elements : List Data} (hcount : elements.length ≤ 255)
      (h : ∀ d ∈ elements, Data.Legal d) : Data.Legal (.package elements)

theorem Data.encode_ne_nil (d : Data) : d.encode ≠ [] := by
  cases d with
  | integer value =>
    obtain ⟨op, bs, hint, -⟩ := reads_integer false value
    rw [Data.encode, hint]
    exact List.cons_ne_nil _ _
  | string text => exact List.cons_ne_nil _ _
  | buffer bytes => exact List.cons_ne_nil _ _
  | package elements => exact List.cons_ne_nil _ _

theorem length_le_of_mem {α : Type} (encode : α → Bytes) {items : List α} {x : α}
    (h : x ∈ items) : (encode x).length ≤ (items.flatMap encode).length :=
  (List.sublist_flatten_of_mem (List.mem_map_of_mem h)).length_le

theorem reads_data (strict : Bool) (fuel : Nat) : ∀ d : Data, d.Legal → d.encode.length ≤ fuel →
    d.encode.length < 2 ^ 28 → Reads (readData strict fuel) d.encode d := by
  induction fuel with
  | zero =>
    intro d _ hfuel _
    exact absurd (List.length_eq_zero_iff.mp (Nat.le_zero.mp hfuel)) d.encode_ne_nil
  | succ fuel ih =>
    intro d hlegal hfuel hsize
    cases hlegal with
    | integer value =>
      obtain ⟨op, bs, hint, ⟨hstring, hbuffer, hpackage⟩, hread⟩ := reads_integer strict value
      rw [Data.encode, hint]
      refine reads_cons ?_
      rw [if_neg hstring, if_neg hbuffer, if_neg hpackage]
      exact hread.map Data.integer
    | @string text htext => exact reads_cons ((reads_string htext).map Data.string)
    | buffer bytes =>
      rw [Data.encode, Acpi.buffer, List.length_cons, length_packaged,
        List.length_append] at hsize
      refine reads_cons (reads_packaged (readBuffer_written strict (by omega)) strict ?_)
      rw [List.length_append]
      omega
    | @package elements hcount helements =>
      rw [Data.encode, Acpi.package, List.length_cons, length_packaged] at hsize hfuel
      rw [List.length_cons, encodeElements_eq] at hsize hfuel
      have hcountByte : (UInt8.ofNat elements.length).toNat = elements.length := by
        rw [UInt8.toNat_ofNat']
        omega
      have hne : ∀ d ∈ elements, d.encode ≠ [] := fun d _ => d.encode_ne_nil
      have hall := toEnd_flatMap (p := readData strict fuel) (f := id)
        (fun d hd => by
          have := length_le_of_mem Data.encode hd
          exact ih d (helements d hd) (by omega) (by omega))
        hne (length_le_flatMap hne)
      have hread : readPackage (readData strict fuel)
          (UInt8.ofNat elements.length :: elements.flatMap Data.encode)
            = .ok (.package elements, []) := by
        refine (Codec.run_bind (reads_byte _ _) _).trans ?_
        refine (Codec.run_bind (p := Codec.remaining) rfl _).trans ?_
        refine (Codec.run_bind hall _).trans ?_
        rw [List.map_id, if_pos hcountByte.symm]
        rfl
      rw [Data.encode, encodeElements_eq]
      refine reads_cons (reads_packaged hread strict ?_)
      rw [List.length_cons]
      omega

/-- A term whose paths and data the grammar has an encoding for. -/
inductive Term.Legal : Term Bytes → Prop where
  | name {path : Bytes} {value : Data} (hpath : LegalPath path) (hvalue : value.Legal) :
      Term.Legal (.name path value)
  | device {path : Bytes} {body : List (Term Bytes)} (hpath : LegalPath path)
      (h : ∀ t ∈ body, Term.Legal t) : Term.Legal (.device path body)
  | scope {path : Bytes} {body : List (Term Bytes)} (hpath : LegalPath path)
      (h : ∀ t ∈ body, Term.Legal t) : Term.Legal (.scope path body)

theorem Term.encode_ne_nil (t : Term Bytes) : t.encode ≠ [] := by
  cases t <;> exact List.cons_ne_nil _ _

theorem readScope_written {p : Parser (Term Name)} {path : Bytes} {body : List (Term Bytes)}
    (make : Name → List (Term Name) → Term Name) (hpath : LegalPath path)
    (hbody : ∀ t ∈ body, Reads p t.encode (t.map Name.ofPath)) :
    readScope p make (nameString path ++ encodeBody body)
      = .ok (make (Name.ofPath path) (mapBody Name.ofPath body), []) := by
  have hne : ∀ t ∈ body, t.encode ≠ [] := fun t _ => t.encode_ne_nil
  have hall := toEnd_flatMap hbody hne (length_le_flatMap hne)
  rw [encodeBody_eq, mapBody_eq]
  unfold readScope
  refine ((reads_name hpath).run_bind _ _).trans ?_
  refine (Codec.run_bind (p := Codec.remaining) rfl _).trans ?_
  refine (Codec.run_bind hall _).trans ?_
  rfl

theorem reads_term (strict : Bool) (fuel : Nat) : ∀ t : Term Bytes, t.Legal →
    t.encode.length ≤ fuel → t.encode.length < 2 ^ 28 →
    Reads (readTerm strict fuel) t.encode (t.map Name.ofPath) := by
  induction fuel with
  | zero =>
    intro t _ hfuel _
    exact absurd (List.length_eq_zero_iff.mp (Nat.le_zero.mp hfuel)) t.encode_ne_nil
  | succ fuel ih =>
    have hbody : ∀ (path : Bytes) (body : List (Term Bytes)), (∀ t ∈ body, t.Legal) →
        (nameString path ++ encodeBody body).length ≤ fuel →
        (nameString path ++ encodeBody body).length < 2 ^ 28 →
        ∀ t ∈ body, Reads (readTerm strict fuel) t.encode (t.map Name.ofPath) := by
      intro path body hlegal hfuel hsize t ht
      have := length_le_of_mem Term.encode ht
      rw [List.length_append, encodeBody_eq] at hfuel hsize
      exact ih t (hlegal t ht) (by omega) (by omega)
    intro t hlegal hfuel hsize
    cases hlegal with
    | @name path value hpath hvalue =>
      rw [Term.encode, Acpi.name, List.length_cons, List.length_append] at hfuel hsize
      have hread := (reads_data strict fuel value hvalue (by omega) (by omega)).map
        fun value => Term.name (Name.ofPath path) value
      exact reads_cons ((reads_name hpath).bind hread)
    | @device path body hpath h =>
      rw [Term.encode, Acpi.device, List.length_cons, List.length_cons,
        length_packaged] at hfuel hsize
      have hscope := readScope_written Term.device hpath
        (hbody path body h (by omega) (by omega))
      exact reads_cons (reads_cons (reads_packaged hscope strict (by omega)))
    | @scope path body hpath h =>
      rw [Term.encode, Acpi.scope, List.length_cons, length_packaged] at hfuel hsize
      have hscope := readScope_written Term.scope hpath
        (hbody path body h (by omega) (by omega))
      exact reads_cons (reads_packaged hscope strict (by omega))

/-- **Every tree of terms or data is recovered**, also by a reader that refuses a field that is
not the shortest, an integer in a wider form than it needs, and a buffer of another size than it
declares. What follows a tree is left for the next. -/
theorem trees_recovered (strict : Bool) (rest : Bytes) :
    (∀ d : Data, d.Legal → d.encode.length < 2 ^ 28 → ∀ fuel, d.encode.length ≤ fuel →
      readData strict fuel (d.encode ++ rest) = .ok (d, rest)) ∧
    ∀ t : Term Bytes, t.Legal → t.encode.length < 2 ^ 28 → ∀ fuel, t.encode.length ≤ fuel →
      readTerm strict fuel (t.encode ++ rest) = .ok (t.map Name.ofPath, rest) :=
  ⟨fun d hlegal hsize fuel hfuel => reads_data strict fuel d hlegal hfuel hsize rest,
    fun t hlegal hsize fuel hfuel => reads_term strict fuel t hlegal hfuel hsize rest⟩

def hostBridge : Term Bytes :=
  .device [0x50, 0x43, 0x49, 0x30] [.name [0x5f, 0x43, 0x52, 0x53] (.template [])]

theorem trees_recovered_hostBridge :
    readTerm true 32 (hostBridge.encode ++ [0x08]) = .ok (hostBridge.map Name.ofPath, [0x08]) := by
  refine (trees_recovered true [0x08]).2 hostBridge ?_ (by decide) 32 (by decide)
  refine .device ⟨by decide, by decide⟩ fun t ht => ?_
  obtain rfl := List.mem_singleton.mp ht
  exact .name ⟨by decide, by decide⟩ (.buffer _)

/-- A NUL in a string ends it: `Name (_S5_, "\\0")` is read back with an empty string, and the
other NUL is left over. -/
theorem nul_in_string : segments [0x5f, 0x53, 0x35, 0x5f] = [[0x5f, 0x53, 0x35, 0x5f]] ∧
    (Term.name [0x5f, 0x53, 0x35, 0x5f] (.string [0])).encode.length = 8 ∧
    ∀ strict, readTerm strict 8 (Term.name [0x5f, 0x53, 0x35, 0x5f] (.string [0])).encode ≠
      .ok ((Term.name [0x5f, 0x53, 0x35, 0x5f] (.string [0])).map Name.ofPath, []) := by
  refine ⟨by decide, rfl, fun strict h => ?_⟩
  have hread : readTerm strict 8 (Term.name [0x5f, 0x53, 0x35, 0x5f] (.string [0])).encode =
      .ok (.name (Name.ofPath [0x5f, 0x53, 0x35, 0x5f]) (.string []), [0]) := by
    cases strict <;> rfl
  rw [hread] at h
  cases h

end Rsemu.Acpi

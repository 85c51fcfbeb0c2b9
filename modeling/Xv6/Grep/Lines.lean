import Xv6.Grep.Matcher

set_option autoImplicit false

namespace Xv6.Grep

open CString

def newline : UInt8 := 10

def bufSize : Nat := 1024

section Code

-- The distance from the pointer to the character found.
def strchr (c : UInt8) : List UInt8 → Option Nat
  | [] => none
  | b :: rest => if b = 0 then none else if b = c then some 0 else (strchr c rest).map (· + 1)

def overwrite (buf : List UInt8) (off : Nat) (bytes : List UInt8) : List UInt8 :=
  buf.take off ++ bytes ++ buf.drop (off + bytes.length)

-- `match_correct` gives match that many calls.
def accepts (pattern text : List UInt8) : Bool :=
  decide (matchText (pattern.length + text.length + 2) pattern text = some true)

-- The loop over the newlines of the buffer: the buffer, p and what has been written.
def lineLoop (pattern : List UInt8) :
    Nat → List UInt8 → Nat → List (List UInt8) → Option (List UInt8 × Nat × List (List UInt8))
  | 0, _, _, _ => none
  | fuel + 1, buf, p, out =>
    match strchr newline (buf.drop p) with
    | none => some (buf, p, out)
    | some k =>
      let cut := buf.set (p + k) 0
      if accepts pattern (cut.drop p) then
        let whole := cut.set (p + k) newline
        lineLoop pattern fuel whole (p + k + 1) (out ++ [(whole.drop p).take (k + 1)])
      else lineLoop pattern fuel cut (p + k + 1) out

-- After the lines: nothing is kept when no newline was found, else what stands behind the last one.
def keep (buf : List UInt8) (m p : Nat) : List UInt8 × Nat :=
  if p = 0 then (buf, 0) else (overwrite buf 0 ((buf.drop p).take (m - p)), m - p)

-- The pieces are what read returns, one after the other; at the end of the input it returns 0. A piece that
-- is empty or longer than the request is no answer of read.
def grepLoop (pattern : List UInt8) :
    List (List UInt8) → List UInt8 → Nat → List (List UInt8) → Option (List (List UInt8))
  | [], _, _, out => some out
  | piece :: pieces, buf, m, out =>
    if piece = [] ∨ bufSize - m - 1 < piece.length then none
    else do
      let (buf, p, out) ←
        lineLoop pattern bufSize ((overwrite buf m piece).set (m + piece.length) 0) 0 out
      let (buf, m) := keep buf (m + piece.length) p
      grepLoop pattern pieces buf m out

def grep (pattern : List UInt8) (pieces : List (List UInt8)) (buf : List UInt8) : Option (List (List UInt8)) :=
  grepLoop pattern pieces buf 0 []

end Code

section Lines

-- The newline-terminated lines of a stream that goes on with the line `part`, and the line left open.
def linesFrom (part : List UInt8) : List UInt8 → List (List UInt8)
  | [] => []
  | b :: rest => if b = newline then part :: linesFrom [] rest else linesFrom (part ++ [b]) rest

def tailFrom (part : List UInt8) : List UInt8 → List UInt8
  | [] => part
  | b :: rest => if b = newline then tailFrom [] rest else tailFrom (part ++ [b]) rest

def lines (input : List UInt8) : List (List UInt8) := linesFrom [] input

def bytesOf (written : List (List UInt8)) : Nat := (written.map fun line => line.length + 1).sum

variable {part extra a b line : List UInt8}

theorem linesFrom_append (part a b : List UInt8) :
    linesFrom part (a ++ b) = linesFrom part a ++ linesFrom (tailFrom part a) b := by
  induction a generalizing part with
  | nil => rfl
  | cons byte a ih =>
    by_cases ends : byte = newline
    · simp [linesFrom, tailFrom, ends, ih]
    · simp [linesFrom, tailFrom, ends, ih]

theorem tailFrom_append (part a b : List UInt8) : tailFrom part (a ++ b) = tailFrom (tailFrom part a) b := by
  induction a generalizing part with
  | nil => rfl
  | cons byte a ih =>
    by_cases ends : byte = newline
    · simp [tailFrom, ends, ih]
    · simp [tailFrom, ends, ih]

theorem linesFrom_open (part : List UInt8) (noEnd : newline ∉ a) : linesFrom part a = [] := by
  induction a generalizing part with
  | nil => rfl
  | cons byte a ih =>
    obtain ⟨here, later⟩ := List.ne_and_not_mem_of_not_mem_cons noEnd
    rw [linesFrom, if_neg here.symm, ih _ later]

theorem tailFrom_open (part : List UInt8) (noEnd : newline ∉ a) : tailFrom part a = part ++ a := by
  induction a generalizing part with
  | nil => exact (List.append_nil part).symm
  | cons byte a ih =>
    obtain ⟨here, later⟩ := List.ne_and_not_mem_of_not_mem_cons noEnd
    rw [tailFrom, if_neg here.symm, ih _ later, List.append_assoc, List.singleton_append]

theorem linesFrom_line (noEnd : newline ∉ line) : linesFrom [] (line ++ newline :: b) = line :: linesFrom [] b := by
  rw [linesFrom_append, linesFrom_open [] noEnd, tailFrom_open [] noEnd, linesFrom, if_pos rfl]
  rfl

theorem tailFrom_line (noEnd : newline ∉ line) : tailFrom [] (line ++ newline :: b) = tailFrom [] b := by
  rw [tailFrom_append, tailFrom_open [] noEnd, tailFrom, if_pos rfl]

theorem linesFrom_carried (noEnd : newline ∉ part) : linesFrom [] (part ++ a) = linesFrom part a := by
  rw [linesFrom_append, linesFrom_open [] noEnd, tailFrom_open [] noEnd]
  rfl

theorem tailFrom_carried (noEnd : newline ∉ part) : tailFrom [] (part ++ a) = tailFrom part a := by
  rw [tailFrom_append, tailFrom_open [] noEnd]
  rfl

theorem newline_notMem_tailFrom (noEnd : newline ∉ part) : newline ∉ tailFrom part a := by
  induction a generalizing part with
  | nil => exact noEnd
  | cons byte a ih =>
    rw [tailFrom]
    split
    next => exact ih List.not_mem_nil
    next inner => exact ih (by simp [noEnd, Ne.symm inner])

theorem mem_of_mem_tailFrom {byte : UInt8} (found : byte ∈ tailFrom part a) : byte ∈ part ∨ byte ∈ a := by
  induction a generalizing part with
  | nil => exact Or.inl found
  | cons first a ih =>
    rw [tailFrom] at found
    split at found
    next => exact Or.inr (List.mem_cons_of_mem _ ((ih found).resolve_left List.not_mem_nil))
    next =>
      rcases ih found with before | later
      · rcases List.mem_append.mp before with old | new
        · exact Or.inl old
        · exact Or.inr (List.mem_cons.mpr (Or.inl (List.mem_singleton.mp new)))
      · exact Or.inr (List.mem_cons_of_mem _ later)

-- Every byte is in a finished line or in the open one.
theorem bytesOf_linesFrom (part a : List UInt8) :
    bytesOf (linesFrom part a) + (tailFrom part a).length = part.length + a.length := by
  induction a generalizing part with
  | nil => simp [linesFrom, tailFrom, bytesOf]
  | cons byte a ih =>
    by_cases ends : byte = newline
    · have rest := ih []
      simp only [linesFrom, tailFrom, ends, if_true, bytesOf, List.map_cons, List.sum_cons, List.length_cons,
        List.length_nil] at rest ⊢
      omega
    · have rest := ih (part ++ [byte])
      simp only [linesFrom, tailFrom, ends, if_false, List.length_cons, List.length_append, List.length_nil] at rest ⊢
      omega

-- What stands before a line's first byte is written with the line, if the line ends.
theorem bytesOf_linesFrom_extra (extra part a : List UInt8) : bytesOf (linesFrom (extra ++ part) a) =
      bytesOf (linesFrom part a) + if newline ∈ a then extra.length else 0 := by
  induction a generalizing part with
  | nil => simp [linesFrom, bytesOf]
  | cons byte a ih =>
    by_cases ends : byte = newline
    · simp [linesFrom, ends, bytesOf]
      omega
    · have rest := ih (part ++ [byte])
      simp only [linesFrom, ends, if_false, List.mem_cons, Ne.symm ends, false_or]
      rw [List.append_assoc, rest]

end Lines

section Buffer

variable {pattern buf body junk line rest piece part : List UInt8} {out : List (List UInt8)} {fuel p m : Nat}

theorem strchr_open (noEnd : newline ∉ body) (noNul : (0 : UInt8) ∉ body) :
    strchr newline (body ++ 0 :: junk) = none := by
  induction body with
  | nil => rfl
  | cons byte body ih =>
    obtain ⟨plain, later⟩ := List.ne_and_not_mem_of_not_mem_cons noEnd
    obtain ⟨here, noNul⟩ := List.ne_and_not_mem_of_not_mem_cons noNul
    rw [List.cons_append, strchr, if_neg here.symm, if_neg plain.symm, ih later noNul]
    rfl

theorem strchr_line (noEnd : newline ∉ line) (noNul : (0 : UInt8) ∉ line) :
    strchr newline (line ++ newline :: rest) = some line.length := by
  induction line with
  | nil => rfl
  | cons byte line ih =>
    obtain ⟨plain, later⟩ := List.ne_and_not_mem_of_not_mem_cons noEnd
    obtain ⟨here, noNul⟩ := List.ne_and_not_mem_of_not_mem_cons noNul
    rw [List.cons_append, strchr, if_neg here.symm, if_neg plain.symm, ih later noNul]
    rfl

theorem accepts_iff (pattern text : List UInt8) :
    accepts pattern text = true ↔ CString.text text ∈ language (CString.text pattern) := by
  obtain ⟨found, result, agree⟩ : Decides (matchText (pattern.length + text.length + 2) pattern text) _ :=
    matchText_decides (by omega)
  rw [accepts, decide_eq_true_iff, result, Option.some.injEq, agree]

theorem accepts_cut (noNul : (0 : UInt8) ∉ line) : accepts pattern (line ++ 0 :: rest) = accepts pattern line := by
  rw [Bool.eq_iff_iff, accepts_iff, accepts_iff, text_append_nul noNul, text_eq_self noNul]

def answer (pattern : List UInt8) (found : List (List UInt8)) : List (List UInt8) :=
  (found.filter (accepts pattern)).map (· ++ [newline])

theorem answer_append (pattern : List UInt8) (found more : List (List UInt8)) :
    answer pattern (found ++ more) = answer pattern found ++ answer pattern more := by
  rw [answer, List.filter_append, List.map_append, answer, answer]

theorem drop_set_line {byte : UInt8} (shape : buf.drop p = line ++ newline :: rest) :
    (buf.set (p + line.length) byte).drop p = line ++ byte :: rest := by
  rw [List.drop_set, if_neg (Nat.not_lt.mpr (Nat.le_add_right _ _)), shape, Nat.add_sub_cancel_left,
    List.set_append_right _ _ le_rfl, Nat.sub_self, List.set_cons_zero]

theorem drop_behind {byte : UInt8} (shape : buf.drop p = line ++ byte :: rest) :
    buf.drop (p + line.length + 1) = rest := by
  rw [Nat.add_assoc, ← List.drop_drop, shape, List.append_cons]
  exact List.drop_left' List.length_append

-- By induction on the fuel; every round takes one line off the front.
theorem lineLoop_returns (shape : buf.drop p = body ++ 0 :: junk) (noNul : (0 : UInt8) ∉ body)
    (enough : body.length < fuel) :
    ∃ buf' p', lineLoop pattern fuel buf p out = some (buf', p', out ++ answer pattern (linesFrom [] body)) ∧
      buf'.length = buf.length ∧ p' + (tailFrom [] body).length = p + body.length ∧
      buf'.drop p' = tailFrom [] body ++ 0 :: junk := by
  induction fuel generalizing buf p body out with
  | zero => exact absurd enough (Nat.not_lt_zero _)
  | succ fuel ih =>
    rw [lineLoop, shape]
    by_cases ends : newline ∈ body
    · obtain ⟨line, rest, rfl, noEnd⟩ := List.eq_append_cons_of_mem ends
      rw [List.append_assoc, List.cons_append] at shape ⊢
      have noNulLine : (0 : UInt8) ∉ line := fun inside => noNul (List.mem_append_left _ inside)
      have noNulRest : (0 : UInt8) ∉ rest := fun inside =>
        noNul (List.mem_append_right _ (List.mem_cons_of_mem _ inside))
      have shorter : rest.length < fuel := by
        rw [List.length_append, List.length_cons] at enough
        omega
      have cut : (buf.set (p + line.length) 0).drop p = line ++ 0 :: (rest ++ 0 :: junk) := drop_set_line shape
      rw [strchr_line noEnd noNulLine, linesFrom_line noEnd, tailFrom_line noEnd]
      simp only [cut, accepts_cut noNulLine, List.set_set]
      have line' : answer pattern (line :: linesFrom [] rest) =
          (if accepts pattern line then [line ++ [newline]] else []) ++ answer pattern (linesFrom [] rest) := by
        by_cases found : accepts pattern line
        · simp [answer, found]
        · simp [answer, found]
      by_cases found : accepts pattern line
      · have whole : (buf.set (p + line.length) newline).drop p = line ++ newline :: (rest ++ 0 :: junk) :=
          drop_set_line shape
        have copied : ((buf.set (p + line.length) newline).drop p).take (line.length + 1) = line ++ [newline] := by
          rw [whole, List.append_cons]
          exact List.take_left' List.length_append
        obtain ⟨buf', p', run, size, place, left⟩ := ih (drop_behind whole) noNulRest shorter
        refine ⟨buf', p', ?_, size.trans (List.length_set ..), ?_, left⟩
        · rw [if_pos found, copied, run, line', if_pos found, List.append_assoc]
        · rw [place, List.length_append, List.length_cons]
          omega
      · obtain ⟨buf', p', run, size, place, left⟩ := ih (drop_behind cut) noNulRest shorter
        refine ⟨buf', p', ?_, size.trans (List.length_set ..), ?_, left⟩
        · rw [if_neg found, run, line', if_neg found, List.nil_append]
        · rw [place, List.length_append, List.length_cons]
          omega
    · rw [strchr_open ends noNul, linesFrom_open [] ends, tailFrom_open [] ends]
      exact ⟨buf, p, by simp [answer], rfl, rfl, shape⟩

end Buffer

section Reads

-- What the loop keeps of the bytes it has, and the lines it sees, one read after the other.
def kept (part piece : List UInt8) : List UInt8 := if newline ∈ piece then tailFrom part piece else []

def seen (part : List UInt8) : List (List UInt8) → List (List UInt8)
  | [] => []
  | piece :: pieces => linesFrom part piece ++ seen (kept part piece) pieces

-- The pieces read may return: not empty and no longer than the room behind the bytes kept.
def Served (part : List UInt8) : List (List UInt8) → Prop
  | [] => True
  | piece :: pieces => piece ≠ [] ∧ piece.length ≤ bufSize - part.length - 1 ∧ Served (kept part piece) pieces

-- A piece without a newline comes only where no newline follows.
def EndedPieces : List (List UInt8) → Prop
  | [] => True
  | piece :: pieces => (newline ∈ piece ∨ newline ∉ pieces.flatten) ∧ EndedPieces pieces

instance decidableServed (part : List UInt8) : (pieces : List (List UInt8)) → Decidable (Served part pieces)
  | [] => isTrue trivial
  | piece :: pieces =>
    have := decidableServed (kept part piece) pieces
    inferInstanceAs (Decidable (_ ∧ _ ∧ _))

instance decidableEndedPieces : (pieces : List (List UInt8)) → Decidable (EndedPieces pieces)
  | [] => isTrue trivial
  | _ :: pieces =>
    have := decidableEndedPieces pieces
    inferInstanceAs (Decidable (_ ∧ _))

variable {pattern buf part : List UInt8} {pieces out : List (List UInt8)} {m : Nat}

theorem newline_notMem_kept {piece : List UInt8} (noEnd : newline ∉ part) : newline ∉ kept part piece := by
  rw [kept]
  split
  · exact newline_notMem_tailFrom noEnd
  · exact List.not_mem_nil

theorem overwrite_length {off : Nat} {bytes : List UInt8} (fits : off + bytes.length ≤ buf.length) :
    (overwrite buf off bytes).length = buf.length := by
  simp only [overwrite, List.length_append, List.length_take, List.length_drop]
  omega

theorem buffer_after_read {piece : List UInt8} (begun : buf.take m = part) (count : part.length = m)
    (fits : m + piece.length < buf.length) : (overwrite buf m piece).set (m + piece.length) 0 =
      part ++ piece ++ 0 :: buf.drop (m + piece.length + 1) := by
  have place : (part ++ piece).length = m + piece.length := by rw [List.length_append, count]
  obtain ⟨old, rest, tail⟩ := List.exists_cons_of_length_pos (l := buf.drop (m + piece.length))
    (by rw [List.length_drop]; omega)
  have next : buf.drop (m + piece.length + 1) = rest := by rw [← List.drop_drop, tail, List.drop_one, List.tail_cons]
  rw [next, overwrite, begun, tail, ← place, List.set_append_right _ _ le_rfl, Nat.sub_self, List.set_cons_zero]

theorem mem_append_kept {byte : UInt8} {piece rest : List UInt8} (found : byte ∈ kept part piece ++ rest) :
    byte ∈ part ++ (piece ++ rest) := by
  rw [kept] at found
  split at found
  · rcases List.mem_append.mp found with tail | later
    · rcases mem_of_mem_tailFrom tail with old | new
      · exact List.mem_append_left _ old
      · exact List.mem_append_right _ (List.mem_append_left _ new)
    · exact List.mem_append_right _ (List.mem_append_right _ later)
  · exact List.mem_append_right _ (List.mem_append_right _ found)

theorem tailFrom_shorter (part : List UInt8) {piece : List UInt8} (ends : newline ∈ piece) :
    (tailFrom part piece).length < part.length + piece.length := by
  obtain ⟨line, rest, rfl, noEnd⟩ := List.eq_append_cons_of_mem ends
  have total := bytesOf_linesFrom part (line ++ newline :: rest)
  have counted : 0 < bytesOf (linesFrom part (line ++ newline :: rest)) := by
    rw [linesFrom_append, linesFrom_open part noEnd, tailFrom_open part noEnd, linesFrom, if_pos rfl, List.nil_append,
      bytesOf, List.map_cons, List.sum_cons]
    omega
  omega

theorem keep_eq {piece junk : List UInt8} {p : Nat} (size : buf.length = bufSize)
    (place : p + (tailFrom part piece).length = m) (total : part.length + piece.length = m)
    (shape : buf.drop p = tailFrom part piece ++ 0 :: junk) :
    (keep buf m p).1.length = bufSize ∧ (keep buf m p).2 = (kept part piece).length ∧
      (keep buf m p).1.take (keep buf m p).2 = kept part piece := by
  unfold keep kept
  by_cases ends : newline ∈ piece
  · have shorter := tailFrom_shorter part ends
    have tail : m - p = (tailFrom part piece).length := by omega
    have copied : (buf.drop p).take (m - p) = tailFrom part piece := by rw [shape, tail, List.take_left]
    have room : p + (tailFrom part piece).length ≤ buf.length := by
      have := congrArg List.length shape
      rw [List.length_drop, List.length_append, List.length_cons] at this
      omega
    rw [if_neg (by omega), if_pos ends, copied]
    refine ⟨?_, tail, ?_⟩
    · rw [overwrite_length (by omega), size]
    · rw [overwrite, tail, List.take_zero, List.nil_append, List.take_left]
  · have open' := tailFrom_open part ends
    rw [open', List.length_append] at place
    rw [if_pos (by omega), if_neg ends]
    exact ⟨size, rfl, rfl⟩

-- By induction on the pieces: what the buffer holds before each read is the line kept.
theorem grepLoop_eq (size : buf.length = bufSize) (begun : buf.take m = part) (count : part.length = m)
    (noEnd : newline ∉ part) (noNul : (0 : UInt8) ∉ part ++ pieces.flatten) (served : Served part pieces) :
    grepLoop pattern pieces buf m out = some (out ++ answer pattern (seen part pieces)) := by
  induction pieces generalizing buf m part out with
  | nil => simp [grepLoop, seen, answer]
  | cons piece pieces ih =>
    obtain ⟨nonempty, fits, later⟩ := served
    rw [count] at fits
    have positive := List.length_pos_iff.mpr nonempty
    have fits' : m + piece.length < buf.length := by omega
    have buffer := buffer_after_read begun count fits'
    rw [List.flatten_cons] at noNul
    have noNul' : (0 : UInt8) ∉ part ++ piece := fun inside => noNul (by
      rw [← List.append_assoc]
      exact List.mem_append_left _ inside)
    have enough : (part ++ piece).length < bufSize := by
      rw [List.length_append]
      omega
    have start : ((overwrite buf m piece).set (m + piece.length) 0).drop 0 =
        (part ++ piece) ++ 0 :: buf.drop (m + piece.length + 1) := buffer
    obtain ⟨buf', p', run, size', place, left⟩ := lineLoop_returns start noNul' enough
    rw [linesFrom_carried noEnd] at run
    rw [tailFrom_carried noEnd, List.length_append, count, Nat.zero_add] at place
    rw [tailFrom_carried noEnd] at left
    rw [List.length_set, overwrite_length (Nat.le_of_lt fits'), size] at size'
    obtain ⟨size', count', begun'⟩ := keep_eq size' place (by rw [count]) left
    rw [grepLoop, if_neg (by rintro (empty | long); exacts [nonempty empty, by omega]), run]
    rw [seen, answer_append, ← List.append_assoc]
    exact ih size' begun' count'.symm (newline_notMem_kept noEnd) (fun inside => noNul (mem_append_kept inside)) later

theorem seen_none (noEnd : newline ∉ pieces.flatten) (part : List UInt8) : seen part pieces = [] := by
  induction pieces generalizing part with
  | nil => rfl
  | cons piece pieces ih =>
    rw [List.flatten_cons, List.mem_append, not_or] at noEnd
    rw [seen, linesFrom_open part noEnd.1, ih noEnd.2, List.append_nil]

theorem EndedPieces.of_none (noEnd : newline ∉ pieces.flatten) : EndedPieces pieces := by
  induction pieces with
  | nil => trivial
  | cons piece pieces ih =>
    rw [List.flatten_cons, List.mem_append, not_or] at noEnd
    exact ⟨Or.inr noEnd.2, ih noEnd.2⟩

theorem bytesOf_append (a b : List (List UInt8)) : bytesOf (a ++ b) = bytesOf a + bytesOf b := by
  rw [bytesOf, List.map_append, List.sum_append, bytesOf, bytesOf]

-- Bytes are dropped and never made up.
theorem bytesOf_seen_le (part : List UInt8) (pieces : List (List UInt8)) :
    bytesOf (seen part pieces) ≤ bytesOf (linesFrom part pieces.flatten) := by
  induction pieces generalizing part with
  | nil => exact le_rfl
  | cons piece pieces ih =>
    rw [seen, List.flatten_cons, linesFrom_append, bytesOf_append, bytesOf_append, kept]
    split
    next => exact Nat.add_le_add_left (ih _) _
    next =>
      have more := bytesOf_linesFrom_extra (tailFrom part piece) [] pieces.flatten
      rw [List.append_nil] at more
      have := ih []
      omega

theorem seen_eq_iff (noEnd : newline ∉ part) (served : Served part pieces) :
    seen part pieces = linesFrom part pieces.flatten ↔ EndedPieces pieces := by
  induction pieces generalizing part with
  | nil => exact ⟨fun _ => trivial, fun _ => rfl⟩
  | cons piece pieces ih =>
    obtain ⟨nonempty, -, later⟩ := served
    have positive := List.length_pos_iff.mpr nonempty
    rw [seen, List.flatten_cons, linesFrom_append, List.append_cancel_left_eq, EndedPieces]
    by_cases ends : newline ∈ piece
    · rw [← ih (newline_notMem_kept noEnd) later, kept, if_pos ends]
      exact (and_iff_right (Or.inl ends)).symm
    · by_cases follows : newline ∈ pieces.flatten
      · -- The bytes of this piece are missing from the line that the newline ends.
        have fewer : bytesOf (seen (kept part piece) pieces) < bytesOf (linesFrom (tailFrom part piece) pieces.flatten) := by
          have more := bytesOf_linesFrom_extra (tailFrom part piece) [] pieces.flatten
          have bound := bytesOf_seen_le [] pieces
          rw [List.append_nil, if_pos follows, tailFrom_open part ends, List.length_append] at more
          rw [kept, if_neg ends, tailFrom_open part ends]
          omega
        refine ⟨fun same => absurd (congrArg bytesOf same) (Nat.ne_of_lt fewer), fun ended => ?_⟩
        exact absurd (ended.1.resolve_left ends) (not_not_intro follows)
      · rw [seen_none follows, linesFrom_open _ follows]
        exact ⟨fun _ => ⟨Or.inr follows, EndedPieces.of_none follows⟩, fun _ => rfl⟩

theorem accepts_empty (text : List UInt8) : accepts [] text = true := by
  simp [accepts, matchText, matchLoop, matchhere, caret]

theorem answer_inj {found expected : List (List UInt8)}
    (same : ∀ pattern, answer pattern found = answer pattern expected) : found = expected := by
  have all (L : List (List UInt8)) : answer [] L = L.map (· ++ [newline]) := by
    rw [answer, List.filter_eq_self.mpr fun line _ => accepts_empty line]
  have writes := same []
  rw [all, all] at writes
  exact List.map_injective_iff.mpr (fun a b => List.append_cancel_right) writes

theorem grep_lines_iff (buf : List UInt8) (size : buf.length = bufSize) (pieces : List (List UInt8))
    (served : Served [] pieces) (noNul : (0 : UInt8) ∉ pieces.flatten) :
    (∀ pattern, grep pattern pieces buf =
      some (((lines pieces.flatten).filter (accepts pattern)).map (· ++ [newline]))) ↔ EndedPieces pieces := by
  have run (pattern : List UInt8) : grep pattern pieces buf = some (answer pattern (seen [] pieces)) :=
    grepLoop_eq size (List.take_zero) rfl List.not_mem_nil noNul served
  rw [← seen_eq_iff List.not_mem_nil served]
  constructor
  · intro same
    exact answer_inj fun pattern => Option.some.inj ((run pattern).symm.trans (same pattern))
  · intro same pattern
    rw [run, same]
    rfl

theorem grep_lines_iff_twoLines : EndedPieces [[97, newline, 98], [newline]] ∧
      ∀ pattern, grep pattern [[97, newline, 98], [newline]] (List.replicate bufSize 0) =
        some (((lines [97, newline, 98, newline]).filter (accepts pattern)).map (· ++ [newline])) := by
  have ended : EndedPieces [[97, newline, 98], [newline]] := by decide
  exact ⟨ended, (grep_lines_iff _ List.length_replicate _ (by decide) (by decide)).mpr ended⟩

-- "ab" is cut after its first byte: grep forgets that byte and does not find the line.
theorem grep_drops_short_read : grep [97] [[97], [98, newline]] (List.replicate bufSize 0) = some [] ∧
      ((lines [97, 98, newline]).filter (accepts [97])).map (· ++ [newline]) = [[97, 98, newline]] := by
  constructor
  · have served : Served [] [[97], [98, newline]] := by decide
    have run : grep [97] [[97], [98, newline]] (List.replicate bufSize 0) = some (answer [97] (seen [] _)) :=
      grepLoop_eq List.length_replicate List.take_zero rfl List.not_mem_nil (by decide) served
    rw [run]
    decide +kernel
  · decide +kernel

end Reads

end Xv6.Grep

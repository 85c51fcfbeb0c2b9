import Xv6.Kernel.Param

set_option autoImplicit false

/-! What readi and writei are for: the content of an inode as a list of bytes. -/

namespace Xv6.Content

variable {B : Type}

-- `none` is the return value -1.
def readi (content : List B) (off n : Nat) : Option (List B) :=
  if off > content.length ∨ (off + n) % 2 ^ 32 < off then none else some ((content.drop off).take n)

def overlay (content : List B) (off : Nat) (src : List B) : List B :=
  content.take off ++ src ++ content.drop (off + src.length)

def writei (content : List B) (src : List B) (off : Nat) : Option (List B) :=
  if off > content.length ∨ (off + src.length) % 2 ^ 32 < off then none
  else if (off + src.length) % 2 ^ 32 > maxFile * bSize then none
  else some (overlay content off src)

variable {content src : List B} {off n : Nat}

theorem length_overlay (inside : off ≤ content.length) :
    (overlay content off src).length = max content.length (off + src.length) := by
  simp only [overlay, List.length_append, List.length_take, List.length_drop]
  omega

end Xv6.Content

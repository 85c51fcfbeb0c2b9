import Mathlib

set_option autoImplicit false

namespace Xv6

def nofile : Nat := 16
def nfile : Nat := 100
def ninode : Nat := 50
def ndev : Nat := 10
def rootDev : Nat := 1
def maxOpBlocks : Nat := 10
def logSize : Nat := maxOpBlocks * 3
def nbuf : Nat := maxOpBlocks * 3
def fsSize : Nat := 1000

-- mkfs.c
def nlog : Nat := logSize

def rootIno : Nat := 1
def bSize : Nat := 512
def nDirect : Nat := 12
def nIndirect : Nat := bSize / 4
def maxFile : Nat := nDirect + nIndirect
def dirSiz : Nat := 14

end Xv6

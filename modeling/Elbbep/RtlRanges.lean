import Elbbep.ShaperTables

/-!
# Directional classes

`runtime/rtl_ranges.c` sorts codepoints into right-to-left, neutral and weakly
left-to-right ones; everything else is strongly left-to-right.  The recycled
codepoints of the shaper count as right-to-left, because the reordering runs on
shaped text.
-/

namespace Elbbep

/-- `is_rtl`. -/
def ShaperTables.isRtl (tables : ShaperTables) (cp : Nat) : Bool :=
  inRange cp 0x60E 0x660 || -- First part of Arabic block - up to numerals
    inRange cp 0x66D (0x6FF + 1) || -- Balance of Arabic block
    inRange cp 0x750 (0x77F + 1) || -- Arabic-Extended
    inRange cp 0x590 0x600 || -- Hebrew
    tables.arabicShaperRange cp

/-- `is_neutral`. -/
def isNeutral (cp : Nat) : Bool :=
  inRange cp 0x20 0x23 || -- Latin punctuation
    inRange cp 0x26 0x30 ||
    inRange cp 0x3A 0x41 ||
    inRange cp 0x5B 0x61 ||
    inRange cp 0x7B 0xA2 ||
    inRange cp 0xA6 0xA7 ||
    inRange cp 0xA8 0xB0 ||
    inRange cp 0xB7 0xBF ||
    inRange cp 0x600 0x60E || -- Arabic punctuation
    isZeroWidth cp

/-- `is_weak_ltr`: numerals, which do not break a right-to-left span. -/
def isWeakLtr (cp : Nat) : Bool :=
  inRange cp 0x30 0x3A || inRange cp 0x660 0x66D

end Elbbep

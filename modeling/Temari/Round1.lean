import Temari.RoundMachine

/-! Round 1 of the block pipeline: `round1_mid` reads the sixteen ciphertext bytes of
the block through the page window and `round1_tail` mixes them. Transpiled code:
one statement a line, registers under their source names. -/
set_option linter.unusedVariables false
set_option maxRecDepth 4000
namespace Temari.Round1
open RoundMachine

structure Round1Regs where
  rdi : Word
  rsi : Word
  rdx : Word
  rcx : Word
  r8 : Word
  r9 : Word
  rax : Word
  rbx : Word
  r10 : Word
  r11 : Word
  r12 : Word
  r13 : Word
  r14 : Word
  r15 : Word
  rbp : Word

structure Round1Mid where
  rax : Word
  r11 : Word
  r12 : Word
  r13 : Word
  r15 : Word
  r8 : Word
  r14 : Word
  rbx : Word
  r10 : Word
  rcx : Word

structure Round1Tail where
  rdi : Word
  rsi : Word
  rdx : Word
  rcx : Word
  r8 : Word
  r9 : Word
  rax : Word
  rbx : Word
  r10 : Word
  r11 : Word
  r12 : Word
  r13 : Word
  r14 : Word
  r15 : Word

def round1Mid (ctx ct : Bytes) (regs : Round1Regs) : Round Round1Mid := do
  let mut rdi := regs.rdi
  let mut rsi := regs.rsi
  let mut rdx := regs.rdx
  let mut rcx := regs.rcx
  let mut r8 := regs.r8
  let mut r9 := regs.r9
  let mut rax := regs.rax
  let mut rbx := regs.rbx
  let mut r10 := regs.r10
  let mut r11 := regs.r11
  let mut r12 := regs.r12
  let mut r13 := regs.r13
  let mut r14 := regs.r14
  let mut r15 := regs.r15
  let mut rbp := regs.rbp
  rcx ← ctxb ctx (0x2ee0 + (rcx &&& 0xFF).toNat)
  rcx := rcx ^^^ 77
  rdx := 2 * rcx
  rdx := rdx &&& 380
  rcx := rcx - rdx
  rax := rax ^^^ 77
  rdx := rax
  rcx := rcx <<< 16
  rdx := rdx &&& 67
  rdx := rdx + rdx
  rax := rax - rdx
  rax := rax <<< 8
  rcx := rcx + 3149791232
  rcx := rcx ^^^ 3149791232
  rdx := 2 * rcx
  rdx := rdx &&& 3735158784
  rdx := -rdx
  rax := rax + 2935964416
  rax := rax ^^^ 2935964416
  rcx := rcx + rdx
  rcx := rcx + 1867606107
  rdx := 2 * rax
  rdx := rdx &&& 2112493056
  rdx := -rdx
  rdx := rdx + rax
  rdx := rdx + 1056246656
  r8 ← load 1912
  rax ← ctPage ct regs.rsi rsi
  r10 ← ctxb ctx 14573
  rax ← ctxb ctx (16768 + (rax &&& 255)).toNat
  rax := rax ^^^ r10
  store 304 rax
  rax := rax &&& 0xFF
  rsi := rax
  rsi := rsi &&& 85
  rsi := rsi + rsi
  rax := rax - rsi
  rsi := rdi
  rsi := rsi ||| 9
  rsi := rsi ^^^ 515032756
  store 344 rsi
  rsi ← ctPage ct regs.rsi rsi
  rbx ← ctxb ctx (16768 + (rsi &&& 255)).toNat
  rbx := rbx ^^^ r10
  store 360 rbx
  rsi := rbx &&& 0xFF
  r11 := rdi
  rdi := 2 * rsi
  rdi := rdi &&& 72
  rsi := rsi - rdi
  rcx := rcx ^^^ 1867606107
  rdx := rdx ^^^ 1056246656
  rdx := rdx ||| rcx
  rcx := 2 * rdx
  rcx := rcx &&& 3335337378
  rcx := -rcx
  rdx := rdx + rcx
  rdx := rdx + 1667668689
  rax := rax <<< 16
  rax := rax + 3813998592
  rax := rax ^^^ 3813998592
  rcx := 2 * rax
  rcx := rcx &&& 4238082048
  rcx := -rcx
  rax := rax + rcx
  rax := rax + 2119044744
  rsi := rsi <<< 8
  rsi := rsi + 264512512
  rsi := rsi ^^^ 264512512
  rcx := 2 * rsi
  rcx := rcx &&& 3010865664
  rcx := -rcx
  rcx := rcx + rsi
  rcx := rcx + 1505432932
  rax := rax ^^^ 2119044744
  rcx := rcx ^^^ 1505432932
  rcx := rcx ||| rax
  rax := 2 * rcx
  rax := rax &&& 1763153612
  rax := -rax
  rcx := rcx + rax
  rcx := rcx + 881576806
  rax := r11
  rax := rax ||| 10
  rax := rax ^^^ 515032756
  store 424 rax
  rax ← ctPage ct regs.rsi rax
  rax ← ctxb ctx (16768 + (rax &&& 255)).toNat
  rax := rax ^^^ r10
  store 368 rax
  rax := rax &&& 0xFF
  rsi := rax
  rsi := rsi &&& 118
  rsi := rsi + rsi
  rsi := -rsi
  rax := rax + rsi
  rax := rax + 1566155894
  rcx := rcx ^^^ 881576806
  rax := rax ^^^ 1566155894
  rax := rax ||| rcx
  rcx := 2 * rax
  rcx := rcx &&& 7644506
  rax := rax - rcx
  rcx ← load 1280
  rcx ← ctxb ctx (0x2ee0 + (rcx &&& 0xFF).toNat)
  rcx := rcx ^^^ 77
  rsi := 2 * rcx
  rsi := rsi &&& 4294967272
  rsi := -rsi
  rcx := rcx + rsi
  rcx := rcx + 1945041908
  rdx := rdx ^^^ 1667668689
  rcx := rcx ^^^ 1945041908
  rcx := rcx ||| rdx
  rdx := 2 * rcx
  rdx := rdx &&& 2773176
  rcx := rcx - rdx
  rax := rax <<< 8
  rax := rax + 978496768
  rax := rax ^^^ 978496768
  rdx := 2 * rax
  rdx := rdx &&& 1963430400
  rdx := -rdx
  rax := rax + rdx
  rax := rax + 981715273
  rcx := rcx <<< 8
  rcx := rcx + 2502450176
  rcx := rcx ^^^ 2502450176
  rdx := 2 * rcx
  rdx := rdx &&& 1867030016
  rdx := -rdx
  rcx := rcx + rdx
  rcx := rcx + 933515073
  rdx := r11
  rdx := rdx ||| 11
  rdx := rdx ^^^ 515032756
  store 416 rdx
  rdx ← ctPage ct regs.rsi rdx
  rdx ← ctxb ctx (16768 + (rdx &&& 255)).toNat
  rdx := rdx ^^^ r10
  store 384 rdx
  rsi := rdx &&& 0xFF
  store 144 rsi
  rdx := 2 * rsi
  rdx := rdx &&& 358
  rdx := -rdx
  rdx := rdx + rsi
  rdx := rdx + 1861057203
  rax := rax ^^^ 981715273
  rdx := rdx ^^^ 1861057203
  rdx := rdx ||| rax
  rax := 2 * rdx
  rax := rax &&& 1974033444
  rax := -rax
  rax := rax + rdx
  rax := rax + 987016722
  rdx ← load 1320
  rdx ← ctxb ctx (0x2ee0 + (rdx &&& 0xFF).toNat)
  store 72 rdx
  rdx := rdx ^^^ 77
  rsi := 2 * rdx
  rsi := rsi &&& 352
  rsi := -rsi
  rdx := rdx + rsi
  rdx := rdx + 59201456
  rdx := rdx ^^^ 59201456
  rcx := rcx ^^^ 933515073
  rdx := rdx ||| rcx
  rcx := 2 * rdx
  rcx := rcx &&& 2450200240
  rcx := -rcx
  rdx := rdx + rcx
  rdx := rdx + 1225100120
  rdx := rdx ^^^ rax
  store 80 rdx
  rax := (rdx >>> 8) &&& 0xFF
  store 600 rax
  rax := rdx
  store 536 rax
  rax := r11
  rax := rax ||| 6
  rax := rax ^^^ 515032752
  rcx := 2 * rax
  rcx := rcx &&& 1893888994
  rcx := -rcx
  r13 := rax + rcx
  r13 := r13 + 946944497
  rax := r11
  rax := rax ||| 3
  rax := rax ^^^ 515032756
  rcx := 2 * rax
  rcx := rcx &&& 1892445384
  rcx := rcx ^^^ 4294967293
  r15 := rax + rcx
  r15 := r15 + 946222694
  rax := r11
  rax := rax ||| 14
  rax := rax ^^^ 515032752
  rcx := 2 * rax
  rcx := rcx &&& 960591906
  rcx := rcx ^^^ 4294967279
  r9 := rax + rcx
  r9 := r9 + 480295962
  rax := r11
  rax := rax ||| 5
  rax := rax ^^^ 515032752
  rcx := 2 * rax
  rcx := rcx &&& 793151840
  rcx := rcx ^^^ 4294967293
  rax := rax + rcx
  rax := rax + 396575922
  store 176 rax
  rax := r11
  rax := rax ||| 13
  rax := rax ^^^ 515032752
  rcx := 2 * rax
  rcx := rcx &&& 2076329284
  rcx := rcx ^^^ 4294967293
  rdi := rax + rcx
  rdi := rdi + 1038164644
  rax := r11
  rax := rax ||| 15
  rax := rax ^^^ 515032752
  rcx := 2 * rax
  rcx := rcx &&& 3859303136
  rcx := rcx ^^^ 4294967283
  r12 := rax + rcx
  r12 := r12 + 1929651575
  rax ← load 64
  rcx ← load 776
  rax ← ctxb ctx (0x2ee0 + (rcx &&& 0xFF).toNat)
  rax := rax ^^^ 77
  rcx := 2 * rax
  rcx := rcx &&& 4294967270
  rax := rax - rcx
  rcx := r11
  rcx := rcx ||| 12
  rcx := rcx ^^^ 515032752
  store 448 rcx
  rcx ← ctPage ct regs.rsi rcx
  rdx ← load 64
  rcx ← ctxb ctx (16768 + (rcx &&& 255)).toNat
  rcx := rcx ^^^ r10
  store 1088 rcx
  rcx := rcx &&& 0xFF
  rdx := rcx
  rdx := rdx &&& 123
  rdx := rdx + rdx
  rcx := rcx - rdx
  rdx ← load 64
  rsi ← load 1672
  rdx ← ctxb ctx (0x2ee0 + (rsi &&& 0xFF).toNat)
  rdx := rdx ^^^ 77
  rsi := 2 * rdx
  rsi := rsi &&& 332
  rdx := rdx - rsi
  rdi := rdi ^^^ 1038164643
  store 440 rdi
  rsi ← ctPage ct regs.rsi rdi
  rdi ← load 64
  rbx ← ctxb ctx (16768 + (rsi &&& 255)).toNat
  rbx := rbx ^^^ r10
  store 584 rbx
  rsi := rbx &&& 0xFF
  rdi := 2 * rsi
  rdi := rdi &&& 2
  rsi := rsi - rdi
  rcx := rcx <<< 16
  rcx := rcx + 4051369984
  rcx := rcx ^^^ 4051369984
  rdi := 2 * rcx
  rdi := rdi &&& 1696727040
  rdi := -rdi
  rcx := rcx + rdi
  rcx := rcx + 848368922
  rsi := rsi <<< 8
  rsi := rsi + 341836032
  rsi := rsi ^^^ 341836032
  rdi := 2 * rsi
  rdi := rdi &&& 2379667968
  rdi := -rdi
  rsi := rsi + rdi
  rsi := rsi + 1189834113
  rax := rax <<< 16
  rax := rax + 2599616512
  rax := rax ^^^ 2599616512
  rdi := 2 * rax
  rdi := rdi &&& 698351616
  rdi := -rdi
  rax := rax + rdi
  rax := rax + 349213613
  rdx := rdx <<< 8
  rdx := rdx + 4004423168
  rdx := rdx ^^^ 4004423168
  rdi := 2 * rdx
  rdi := rdi &&& 2654728704
  rdi := -rdi
  rdx := rdx + rdi
  rdx := rdx + 1327364556
  rax := rax ^^^ 349213613
  rdx := rdx ^^^ 1327364556
  rdx := rdx ||| rax
  rax := 2 * rdx
  rax := rax &&& 3417981678
  rax := -rax
  rdx := rdx + rax
  rdx := rdx + 1708990839
  rcx := rcx ^^^ 848368922
  rsi := rsi ^^^ 1189834113
  rsi := rsi ||| rcx
  rax := 2 * rsi
  rax := rax &&& 2794896128
  rax := -rax
  rcx := rsi + rax
  rcx := rcx + 1397448064
  rax ← load 64
  rsi ← load 1312
  rax ← ctxb ctx (0x2ee0 + (rsi &&& 0xFF).toNat)
  rax := rax ^^^ 77
  rsi := rax
  rsi := rsi &&& 87
  rsi := rsi + rsi
  rsi := -rsi
  rax := rax + rsi
  rax := rax + 1047731799
  rax := rax ^^^ 1047731799
  rdx := rdx ^^^ 1708990839
  rax := rax ||| rdx
  rbx := r11
  r14 := rbx
  r14 := r14 ||| 4
  r14 := r14 ^^^ 515032752
  store 408 r14
  rdx := rbx
  rdx := rdx ^^^ 515032756
  rdi := rdx
  store 120 rdx
  rsi := rbx
  rsi := rsi ||| 7
  rsi := rsi ^^^ 515032752
  store 608 rsi
  r15 := r15 ^^^ 946222693
  store 528 r15
  r11 := r11 ||| 1
  r11 := r11 ^^^ 515032756
  store 560 r11
  rbx := rbx ||| 2
  r13 := r13 ^^^ 946944497
  store 432 r13
  rbx := rbx ^^^ 515032756
  store 152 rbx
  r9 := r9 ^^^ 480295961
  store 696 r9
  rbx := r8
  rdx ← ctPage ct regs.rsi rsi
  rsi ← load 64
  rdx ← ctxb ctx (16768 + (rdx &&& 255)).toNat
  rdx := rdx ^^^ r10
  store 96 rdx
  rdx ← ctPage ct regs.rsi r13
  rsi ← load 64
  rdx ← ctxb ctx (16768 + (rdx &&& 255)).toNat
  rdx := rdx ^^^ r10
  r13 := rdx
  store 552 rdx
  r8 ← load 176
  r8 := r8 ^^^ 396575921
  store 176 r8
  r12 := r12 ^^^ 1929651574
  store 736 r12
  rdx ← ctPage ct regs.rsi rdi
  rsi ← load 64
  rdx ← ctxb ctx (16768 + (rdx &&& 255)).toNat
  rdx := rdx ^^^ r10
  store 88 rdx
  rdx ← ctPage ct regs.rsi r15
  rsi ← load 64
  rdx ← ctxb ctx (16768 + (rdx &&& 255)).toNat
  rdx := rdx ^^^ r10
  store 336 rdx
  rdx ← ctPage ct regs.rsi r14
  rsi ← load 64
  r15 ← ctxb ctx (16768 + (rdx &&& 255)).toNat
  r15 := r15 ^^^ r10
  store 568 (((← load 568) &&& 0xFFFFFF00) ||| (r15 &&& 0xFF &&& 0xFF))
  rdx ← ctPage ct regs.rsi r11
  rsi ← load 64
  rdx ← ctxb ctx (16768 + (rdx &&& 255)).toNat
  rdx := rdx ^^^ r10
  store 104 rdx
  rdx ← ctPage ct regs.rsi r9
  rdi := rbx
  rsi ← load 64
  rbx ← ctxb ctx (16768 + (rdx &&& 255)).toNat
  rbx := rbx ^^^ r10
  store 576 rbx
  rdx ← ctPage ct regs.rsi r8
  rsi ← load 64
  rdx ← ctxb ctx (16768 + (rdx &&& 255)).toNat
  rdx := rdx ^^^ r10
  r8 := rdx
  store 512 rdx
  rdx ← load 152
  rdx ← ctPage ct regs.rsi rdx
  rsi ← load 64
  rdx ← ctxb ctx (16768 + (rdx &&& 255)).toNat
  rdx := rdx ^^^ r10
  store 112 rdx
  rdx ← ctPage ct regs.rsi r12
  rsi ← load 64
  r10 := r10 ^^^ (← ctxb ctx (16768 + (rdx &&& 255)).toNat)
  store 672 (((← load 672) &&& 0xFFFFFF00) ||| (r10 &&& 0xFF &&& 0xFF))
  rdx := 2 * rax
  rdx := rdx &&& 16408454
  rax := rax - rdx
  rdx := rbx &&& 0xFF
  rsi := 2 * rdx
  rsi := rsi &&& 302
  rsi := -rsi
  rdx := rdx + rsi
  rdx := rdx + 2004746903
  rdx := rdx ^^^ 2004746903
  rcx := rcx ^^^ 1397448064
  rdx := rdx ||| rcx
  rcx := 2 * rdx
  rcx := rcx &&& 9592282
  rdx := rdx - rcx
  rax := rax <<< 8
  rax := rax + 4247765760
  rax := rax ^^^ 4247765760
  rcx := 2 * rax
  rcx := rcx &&& 1058343424
  rcx := -rcx
  rax := rax + rcx
  rax := rax + 529171895
  rcx ← load 64
  rsi ← load 1096
  rcx ← ctxb ctx (0x2ee0 + (rsi &&& 0xFF).toNat)
  store 592 rcx
  rcx := rcx ^^^ 77
  rsi := 2 * rcx
  rsi := rsi &&& 42
  rsi := -rsi
  rcx := rcx + rsi
  rcx := rcx + 1875446293
  rdx := rdx <<< 8
  rdx := rdx + 1227812096
  rdx := rdx ^^^ 1227812096
  rsi := 2 * rdx
  rsi := rsi &&& 2372902400
  rsi := -rsi
  rdx := rdx + rsi
  rdx := rdx + 1186451372
  r14 := r10 &&& 0xFF
  rdi := 2 * r14
  rdi := rdi &&& 4294967272
  rdi := -rdi
  rdi := rdi + r14
  rdi := rdi + 1908834036
  rdx := rdx ^^^ 1186451372
  rdi := rdi ^^^ 1908834036
  rdi := rdi ||| rdx
  rdx := 2 * rdi
  rdx := rdx &&& 1101832222
  rdx := -rdx
  rdx := rdx + rdi
  rdx := rdx + 550916111
  rax := rax ^^^ 529171895
  rcx := rcx ^^^ 1875446293
  rcx := rcx ||| rax
  rax := 2 * rcx
  rax := rax &&& 608184650
  rax := -rax
  rax := rax + rcx
  rax := rax + 304092325
  rax := rax ^^^ rdx
  return { rax, r11, r12, r13, r15, r8, r14, rbx, r10, rcx }

def round1Tail (ctx : Bytes) (eax r13 r15 r8 r14 : Word) : Round Round1Tail := do
  let mut rax : Word := 0
  let mut rbx : Word := 0
  let mut rcx : Word := 0
  let mut rdx : Word := 0
  let mut rsi : Word := 0
  let mut rdi : Word := 0
  rax := eax
  let mut r9 : Word := 0
  let mut r10 : Word := 0
  let mut r11 : Word := 0
  let mut r12 : Word := 0
  r11 := rax
  rcx := (rax >>> 8) &&& 0xFF
  store 616 rcx
  r12 := rax
  rax ← load 64
  rcx ← load 760
  rax ← ctxb ctx (0x2ee0 + (rcx &&& 0xFF).toNat)
  rax := rax ^^^ 77
  rcx := 2 * rax
  rcx := rcx &&& 4294967192
  rax := rax - rcx
  rcx ← load 64
  rdx ← load 1712
  rcx ← ctxb ctx (0x2ee0 + (rdx &&& 0xFF).toNat)
  rcx := rcx ^^^ 77
  rdx := 2 * rcx
  rdx := rdx &&& 0xFF
  rcx := rcx - rdx
  rdx := r15 &&& 0xFF
  rdi := 2 * rdx
  rdi := rdi &&& 8
  rdx := rdx - rdi
  rax := rax <<< 16
  rax := rax + 2194407424
  rax := rax ^^^ 2194407424
  rdi := 2 * rax
  rdi := rdi &&& 3480354816
  rdi := -rdi
  rax := rax + rdi
  rax := rax + 1740228971
  rcx := rcx <<< 8
  rcx := rcx + 2070970112
  rcx := rcx ^^^ 2070970112
  rdi := 2 * rcx
  rdi := rdi &&& 1037842944
  rdi := -rdi
  rcx := rcx + rdi
  rcx := rcx + 518921706
  rax := rax ^^^ 1740228971
  rcx := rcx ^^^ 518921706
  rcx := rcx ||| rax
  rax := r8 &&& 0xFF
  rdi := 2 * rax
  rdi := rdi &&& 4294967212
  rax := rax - rdi
  rdi := 2 * rcx
  rdi := rdi &&& 874782016
  rdi := -rdi
  rcx := rcx + rdi
  rcx := rcx + 437391008
  rdx := rdx <<< 16
  rdx := rdx + 184811520
  rdx := rdx ^^^ 184811520
  rdi := 2 * rdx
  rdi := rdi &&& 2014183424
  rdi := -rdi
  rdx := rdx + rdi
  rdx := rdx + 1007129298
  rax := rax <<< 8
  rax := rax + 4119254528
  rax := rax ^^^ 4119254528
  rdi := 2 * rax
  rdi := rdi &&& 890100224
  rdi := -rdi
  rax := rax + rdi
  rax := rax + 445050157
  rdx := rdx ^^^ 1007129298
  rax := rax ^^^ 445050157
  rax := rax ||| rdx
  rdx := 2 * rax
  rdx := rdx &&& 630464908
  rdx := -rdx
  rax := rax + rdx
  rax := rax + 315232454
  rdx := r13 &&& 0xFF
  rdi := rdx
  rdi := rdi &&& 98
  rdi := rdi + rdi
  rdi := -rdi
  rdx := rdx + rdi
  rdx := rdx + 623732578
  rdx := rdx ^^^ 623732578
  rax := rax ^^^ 315232454
  rdx := rdx ||| rax
  rax ← load 64
  rsi ← load 1128
  rax ← ctxb ctx (0x2ee0 + (rsi &&& 0xFF).toNat)
  rax := rax ^^^ 77
  rdi := rax
  rdi := rdi &&& 106
  rdi := rdi + rdi
  rdi := -rdi
  rax := rax + rdi
  rax := rax + 359910506
  rcx := rcx ^^^ 437391008
  rax := rax ^^^ 359910506
  rax := rax ||| rcx
  rcx := 2 * rax
  rcx := rcx &&& 16574490
  rax := rax - rcx
  rcx := 2 * rdx
  rcx := rcx &&& 471132
  rdx := rdx - rcx
  rax := rax <<< 8
  rax := rax + 4269018368
  rax := rax ^^^ 4269018368
  rcx := 2 * rax
  rcx := rcx &&& 2040860672
  rcx := -rcx
  rax := rax + rcx
  rax := rax + 1020430382
  rcx ← load 64
  rsi ← load 1288
  let mut r8 ← ctxb ctx (0x2ee0 + (rsi &&& 0xFF).toNat)
  rbx := r8
  rbx := rbx ^^^ 77
  rdi := rbx
  rdi := rdi &&& 93
  rdi := rdi + rdi
  rdi := -rdi
  rdi := rdi + rbx
  rdi := rdi + 1210633309
  rdx := rdx <<< 8
  rdx := rdx + 60304896
  rdx := rdx ^^^ 60304896
  rbx := 2 * rdx
  rbx := rbx &&& 1670241280
  rbx := -rbx
  rdx := rdx + rbx
  rdx := rdx + 835120700
  rbx := (← load 96) &&& 255
  rsi := 2 * rbx
  rsi := rsi &&& 4294967196
  rsi := -rsi
  rsi := rsi + rbx
  rsi := rsi + 1191402958
  rdx := rdx ^^^ 835120700
  rsi := rsi ^^^ 1191402958
  rsi := rsi ||| rdx
  rdx := 2 * rsi
  rdx := rdx &&& 3606871938
  rdx := -rdx
  rdx := rdx + rsi
  rdx := rdx + 1803435969
  rax := rax ^^^ 1020430382
  rdi := rdi ^^^ 1210633309
  rdi := rdi ||| rax
  rax := 2 * rdi
  rax := rax &&& 2608315836
  rax := -rax
  rax := rax + rdi
  rax := rax + 1304157918
  rax := rax ^^^ rdx
  let r13 := rax
  rcx := (rax >>> 8) &&& 0xFF
  let r15 := rcx
  r9 := rax
  rax := (← load 88) &&& 255
  rsi := 2 * rax
  rsi := rsi &&& 4294967274
  rax := rax - rsi
  rcx ← load 64
  rdx ← load 888
  rsi ← ctxb ctx (0x2ee0 + (rdx &&& 0xFF).toNat)
  rsi := rsi ^^^ 77
  rdi := 2 * rsi
  rdi := rdi &&& 4294967268
  rsi := rsi - rdi
  rcx ← load 64
  rdx ← load 1736
  rdi ← ctxb ctx (0x2ee0 + (rdx &&& 0xFF).toNat)
  rdi := rdi ^^^ 77
  rdx := 2 * rdi
  rdx := rdx &&& 4294967184
  rdi := rdi - rdx
  rdx := (← load 104) &&& 255
  rcx := rdx
  rcx := rcx &&& 125
  rcx := rcx + rcx
  rdx := rdx - rcx
  rbx := rbx ^^^ r8
  rsi := rsi <<< 16
  rsi := rsi + 3421634560
  rsi := rsi ^^^ 3421634560
  rcx := 2 * rsi
  rcx := rcx &&& 440532992
  rcx := -rcx
  rcx := rcx + rsi
  rcx := rcx + 220270099
  rdi := rdi <<< 8
  rdi := rdi + 3644311552
  rdi := rdi ^^^ 3644311552
  rsi := 2 * rdi
  rsi := rsi &&& 603607040
  rsi := -rsi
  rsi := rsi + rdi
  rsi := rsi + 301803690
  rcx := rcx ^^^ 220270099
  rsi := rsi ^^^ 301803690
  rsi := rsi ||| rcx
  rcx := 2 * rsi
  rcx := rcx &&& 827768700
  rcx := -rcx
  rcx := rcx + rsi
  rcx := rcx + 413884350
  rsi ← load 64
  rdi ← load 1304
  rsi ← ctxb ctx (0x2ee0 + (rdi &&& 0xFF).toNat)
  rsi := rsi ^^^ 77
  rdi := 2 * rsi
  rdi := rdi &&& 312
  rdi := -rdi
  rsi := rsi + rdi
  rsi := rsi + 1477293724
  rcx := rcx ^^^ 413884350
  rsi := rsi ^^^ 1477293724
  rsi := rsi ||| rcx
  rax := rax <<< 16
  rax := rax + 1576337408
  rax := rax ^^^ 1576337408
  rcx := 2 * rax
  rcx := rcx &&& 2194800640
  rcx := -rcx
  rax := rax + rcx
  rax := rax + 1097452216
  rcx := 2 * rsi
  rcx := rcx &&& 16026274
  rsi := rsi - rcx
  rdx := rdx <<< 8
  rdx := rdx + 842693888
  rdx := rdx ^^^ 842693888
  rcx := 2 * rdx
  rcx := rcx &&& 799168512
  rcx := -rcx
  rcx := rcx + rdx
  rcx := rcx + 399584462
  rax := rax ^^^ 1097452216
  rcx := rcx ^^^ 399584462
  rcx := rcx ||| rax
  rax := 2 * rcx
  rax := rax &&& 216268248
  rax := -rax
  rax := rax + rcx
  rax := rax + 108134124
  rcx := (← load 112) &&& 255
  rdx := 2 * rcx
  rdx := rdx &&& 4294967188
  rdx := -rdx
  rdx := rdx + rcx
  rdx := rdx + 1675807946
  rax := rax ^^^ 108134124
  rdx := rdx ^^^ 1675807946
  rdx := rdx ||| rax
  rsi := rsi <<< 8
  rsi := rsi + 2051363072
  rsi := rsi ^^^ 2051363072
  rax := 2 * rsi
  rax := rax &&& 211556864
  rax := -rax
  rsi := rsi + rax
  rsi := rsi + 105778658
  rax := 2 * rdx
  rax := rax &&& 3447560
  rdx := rdx - rax
  rax ← load 64
  rcx ← load 1680
  r10 ← ctxb ctx (0x2ee0 + (rcx &&& 0xFF).toNat)
  rax := r10
  rax := rax ^^^ 77
  rdi := 2 * rax
  rdi := rdi &&& 10
  rdi := -rdi
  rax := rax + rdi
  rax := rax + 992005
  rax := rax ^^^ 992005
  rsi := rsi ^^^ 105778658
  rax := rax ||| rsi
  rdx := rdx <<< 8
  rdx := rdx + 441287680
  rdx := rdx ^^^ 441287680
  rsi := 2 * rdx
  rsi := rsi &&& 1061537280
  rsi := -rsi
  rdx := rdx + rsi
  rdx := rdx + 530768759
  r8 := (← load 336) &&& 255
  rsi := r8
  rsi := rsi &&& 95
  rsi := rsi + rsi
  rsi := -rsi
  rsi := rsi + r8
  rsi := rsi + 1620132703
  rdx := rdx ^^^ 530768759
  rsi := rsi ^^^ 1620132703
  rsi := rsi ||| rdx
  rdx := 2 * rsi
  rdx := rdx &&& 2806329536
  rdx := -rdx
  rdi := rsi + rdx
  rdi := rdi + 1403164768
  r12 := r12 >>> 16
  r12 := r12 &&& 0xFF
  rbx := rbx ^^^ 77
  r12 := r12 ^^^ 246
  rdx := rbx &&& 0xFF
  rsi ← load 64
  rbx ← t4 ctx 14672 (rdx &&& 0xFF)
  rdx ← load 64
  rbx := rbx ^^^ (← t4 ctx 12272 (r12 &&& 0xFF))
  rdx := 2 * rax
  rdx := rdx &&& 1849396032
  rdx := -rdx
  rax := rax + rdx
  rax := rax + 924698016
  rax := rax ^^^ rdi
  rdx := rax
  rsi := (rax >>> 8) &&& 0xFF
  rax := rax >>> 24
  rax := rax ^^^ 100
  rdi ← load 64
  return { rdi, rsi, rdx, rcx, r8, r9, rax, rbx, r10, r11, r12, r13, r14, r15 }

end Temari.Round1

import Temari.RoundMachine

/-! Round 3 of the block pipeline, `round3_sub8000`: the sixteen (offset, byte) pairs of
the plaintext block, and the copy of this block's ciphertext bytes into the slots
the next block is chained with. -/
set_option linter.unusedVariables false
set_option maxRecDepth 4000
namespace Temari.Round3
open RoundMachine

structure Round3Vals where
  pt : Vector (Word × UInt8) 16

/-- The (dst, src) slots of the last loop: the low byte of src goes to dst. -/
def chainCopies : List (Nat × Nat) :=
  [(288, 96), (208, 360), (256, 304), (352, 568), (400, 104), (280, 112), (248, 368), (376, 88),
    (224, 552), (192, 672), (232, 584), (240, 1088), (392, 512), (1040, 576), (992, 336)]

def round3Sub8000 (ctx : Bytes) (a2 a3 a4 a5 a6 v6 v8 v9 v10 v11 v12 : Word) :
    Round Round3Vals := do
  let v13 := (← t4 ctx 14672 (a2 ^^^ 102)) ^^^ v9
  let v14 := (← t4 ctx 14672 ((← load 960) ^^^ 69)) ^^^ v6
  store 624 v14
  store 960 (v14 &&& 0xFF)
  let v15 := v14
  store 912 ((v14 >>> 8) &&& 0xFF)
  let v16 := (← t4 ctx 18080 ((← load 816) ^^^ 193)) ^^^ v13
  let v17 := (← t4 ctx 18080 ((← load 952) ^^^ 160))
      ^^^ (← t4 ctx 12272 (((a6 >>> 16) &&& 0xFF) ^^^ 57))
      ^^^ (← t4 ctx 19136 ((((← load 664) >>> 24) &&& 0xFF) ^^^ 94)) ^^^ (← load 1448)
      ^^^ (← t4 ctx 14672 (a4 ^^^ 147))
  let v18 := (← t4 ctx 12272 (((← load 80) &&& 0xFF) ^^^ 149))
      ^^^ (← t4 ctx 14672 ((← load 720) ^^^ 223)) ^^^ (← load 144)
  store 144 v18
  let v19 := (← t4 ctx 18080 ((← load 72) ^^^ 70))
      ^^^ (← t4 ctx 12272 (((v18 >>> 16) &&& 0xFF) ^^^ 117)) ^^^ (← load 216)
      ^^^ (← t4 ctx 19136 (((a3 >>> 24) &&& 0xFF) ^^^ 84))
  let v20 := (← t4 ctx 18080 ((((← load 144) >>> 8) &&& 0xFF) ^^^ 173))
      ^^^ (← t4 ctx 14672 (v10 ^^^ 124)) ^^^ (← t4 ctx 19136 (((v16 >>> 24) &&& 0xFF) ^^^ 21))
      ^^^ (← load 200) ^^^ (← t4 ctx 12272 (((v12 >>> 16) &&& 0xFF) ^^^ 196))
  let v21 := (← t4 ctx 12272 ((((← load 752) >>> 16) &&& 0xFF) ^^^ 24))
      ^^^ (← t4 ctx 19136 ((((← load 640) >>> 24) &&& 0xFF) ^^^ 47)) ^^^ v11
  store 80 v21
  store 640 (v21 &&& 0xFF)
  let v22 := (v21 >>> 8) &&& 0xFF
  let v23 := v21
  store 664 v16
  let v24 := v16 &&& 0xFF
  store 720 ((v16 >>> 8) &&& 0xFF)
  let v25 := (← ctxb ctx (12000 + ((← load 1000) &&& 255)).toNat) ^^^ 77
  let v26 := (← ctxb ctx (12000 + ((← load 1776) &&& 255)).toNat) ^^^ 77
  let v27 := ((v25 - ((2 * v25) &&& 74)) <<< 16 + 1864695808) ^^^ 1864695808
  let v28 := ((v26 - ((2 * v26) &&& 4294967254)) <<< 8 + 2785012480) ^^^ 2785012480
  let v29 := ((v27 - ((2 * v27) &&& 1410465792) + 705233312) ^^^ 705233312)
      ||| ((v28 - ((2 * v28) &&& 1152910848) + 576455499) ^^^ 576455499)
  let v30e := (← ctxb ctx (12000 + ((← load 1264) &&& 255)).toNat) ^^^ 77
  let v30 := ((v29 - ((2 * v29) &&& 295016336) + 147508168) ^^^ 147508168)
      ||| ((-2 * (v30e &&& 99) + v30e + 291523171) ^^^ 291523171)
  let v31 := ((v30 - ((2 * v30) &&& 4570518)) <<< 8 + 2732509952) ^^^ 2732509952
  let v32 := (← ctxb ctx (12000 + ((← load 1272) &&& 255)).toNat) ^^^ 77
  let v33 := ((v31 - ((2 * v31) &&& 4031905280) + 2015952776) ^^^ 2015952776)
      ||| ((v32 - ((2 * (v32 &&& 0xFFFF)) &&& 258) + 1461094273) ^^^ 1461094273)
  let v34 := (v33 - ((2 * v33) &&& 3251358540) + 1625679270) ^^^ (← t4 ctx 12272 (v8 ^^^ 132))
      ^^^ (← t4 ctx 19136 ((((← load 680) >>> 24) &&& 0xFF) ^^^ 57))
      ^^^ (← t4 ctx 14672 ((← load 536) ^^^ 79)) ^^^ (← t4 ctx 18080 ((← load 616) ^^^ 164))
  let inner := ((v33 - ((2 * v33) &&& 76) - 90) &&& 0xFF)
      ^^^ ((← t4 ctx 12272 (v8 ^^^ 132)) &&& 0xFF)
      ^^^ ((← t4 ctx 19136 ((((← load 680) >>> 24) &&& 0xFF) ^^^ 57)) &&& 0xFF)
      ^^^ ((← t4 ctx 14672 ((← load 536) ^^^ 79)) &&& 0xFF)
      ^^^ ((← t4 ctx 18080 ((← load 616) ^^^ 164)) &&& 0xFF)
  store 72 ((← t4 ctx 18080 ((v22 &&& 0xFF) ^^^ 181))
      ^^^ (← t4 ctx 12272 (((v17 >>> 16) &&& 0xFF) ^^^ 215)) ^^^ (← t4 ctx 14672 (inner ^^^ 20))
      ^^^ (← load 200) ^^^ (← t4 ctx 19136 (((v15 >>> 24) &&& 0xFF) ^^^ 93)))
  let v35 ← load 1424
  let v36 := (← load 144) &&& 0xFF
  let v37 ← load 144
  store 144 ((← t4 ctx 18080 ((← load 912) ^^^ 39))
      ^^^ (← t4 ctx 19136 (((v23 >>> 24) &&& 0xFF) ^^^ 13)) ^^^ v35
      ^^^ (← t4 ctx 12272 (((v34 >>> 16) &&& 0xFF) ^^^ 243)))
  let v38 := (← t4 ctx 18080 (((v34 >>> 8) &&& 0xFF) ^^^ 154))
      ^^^ (← t4 ctx 14672 ((← load 960) ^^^ 200))
  let v39 := (← t4 ctx 19136 (((v37 >>> 24) &&& 0xFF) ^^^ 93)) ^^^ v35
      ^^^ (← t4 ctx 12272 ((((← load 656) >>> 16) &&& 0xFF) ^^^ 116))
  let v40 := v17 &&& 0xFF
  let v41 := (v17 >>> 8) &&& 0xFF
  let v42 := v17
  let v43 := ((← load 600) - 648151040) ^^^ 3646816256
  let v44_ := (← ctxb ctx (12000 + ((← load 1800) &&& 255)).toNat) ^^^ 77
  let v44 := ((v44_ - 2 * (v44_ &&& 115)) <<< 8 + 443708160) ^^^ 443708160
  let v45 := ((v43 - ((2 * v43) &&& 647626752) + 323848524) ^^^ 323848524)
      ||| ((v44 - ((2 * v44) &&& 377109504) + 188554910) ^^^ 188554910)
  let v46 := (← ctxb ctx (12000 + ((← load 1024) &&& 255)).toNat) ^^^ 77
  let v47 := ((v45 - ((2 * v45) &&& 1881170508) + 940585254) ^^^ 940585254)
      ||| ((v46 - ((2 * v46) &&& 4294967214) + 1198151639) ^^^ 1198151639)
  let v48 := ((v47 - ((2 * v47) &&& 4890926)) <<< 8 + 626038528) ^^^ 626038528
  let v49 := v48 - ((2 * v48) &&& 3466706944) + 1733353597
  let v50 := (← ctxb ctx (12000 + ((← load 896) &&& 255)).toNat) ^^^ 77
  let v51 := (v49 ^^^ 1733353597) ||| ((v50 - ((2 * v50) &&& 14) + 394757639) ^^^ 394757639)
  let v52 := v51 - ((2 * v51) &&& 3451826226) + 1725913113
  let v53 := (← t4 ctx 18080 ((← load 728) ^^^ 124)) ^^^ v52 ^^^ (← t4 ctx 14672 (v36 ^^^ 246))
      ^^^ (← t4 ctx 19136 ((((← load 592) >>> 24) &&& 0xFF) ^^^ 124))
  let v54 := (← t4 ctx 18080 (v41 ^^^ 251))
      ^^^ (← t4 ctx 12272 ((((← load 624) >>> 16) &&& 0xFF) ^^^ 239))
      ^^^ (← t4 ctx 19136 (((v34 >>> 24) &&& 0xFF) ^^^ 11)) ^^^ v52
  let v55 := (← load 216) ^^^ (← t4 ctx 19136 (((v42 >>> 24) &&& 0xFF) ^^^ 15)) ^^^ 4632225
  let v56 := (← t4 ctx 12272 ((((← load 80) >>> 16) &&& 0xFF) ^^^ 112)) ^^^ 794611285
  let v57 := (v56 &&& v55) - ((2 * (v56 &&& v55)) &&& 624708428)
  let v58 := (← t4 ctx 14672 (v40 ^^^ 56)) ^^^ (← load 144)
  let P59 := ((2 * v57 + 624708428) ^^^ 3670258866) + 2
  let v59 := (P59 ^^^ 4261142127) + v55 + v56 + 1065498421 + 2 * (P59 &&& 4261142126)
  let v60 := (← t4 ctx 14672 (v24 ^^^ 191)) ^^^ v19
  let v61 := (← t4 ctx 14672 ((← load 648) ^^^ 158)) ^^^ (← t4 ctx 18080 ((← load 720) ^^^ 151))
      ^^^ v39
  let v62 := (v59 - ((2 * v59 + 84137144) &&& 613591180) - 724877662) ^^^ v38
  let v63 := (← t4 ctx 12272 ((((← load 664) >>> 16) &&& 0xFF) ^^^ 163)) ^^^ v53
  let v64 := (← t4 ctx 14672 ((← load 640) ^^^ 40)) ^^^ v54
  let v65 := ((← load 72) ^^^ 1253617536) + ((← load 72) ^^^ v20 ^^^ 835994564)
  let v66 := (v65 ^^^ 4256528127) + (v20 ^^^ 3041349759) + 2 * (v65 &&& 4256528127) - 507357199
  let v67 := v62
  let A68 := (v64 ^^^ 231286699) + (v64 ^^^ v63 ^^^ 1210944675)
  let v68 := (A68 ^^^ 1974730562) + (v63 ^^^ 4063680596) + 2 * (A68 &&& 4122214210) - 1974730561
  let B69 := (v61 ^^^ v58 ^^^ 1751991726) + (v58 ^^^ 955618285)
  let v69 := (((B69 ^^^ 4158062031) + (v61 ^^^ 3339349010) + 2 * (B69 &&& 4158062031) + 136905266)
      ^^^ 1593704122) + 2 * (((B69 ^^^ 4158062031) + (v61 ^^^ 3339349010)
      + 2 * (B69 &&& 4158062031) + 136905266) &&& 3741187770)
  let v70 := -1354390625 * v66 - ((1586186046 * v66 + 148019486) &&& 1415591318) - 291936422
  let C71 := (v62 ^^^ v60 ^^^ 3357349446) + (v62 ^^^ 810030791)
  let v71 := -572832135 * ((C71 ^^^ 534679275) + (v60 ^^^ 4075085194) + 2 * (C71 &&& 534679275)
      - 222211952)
  let v72 := v71 + (v70 ^^^ 3587171636) - 604790202
  let v73 := -1552853171 * v69 - ((1189260954 * v69 + 2078169116) &&& 3728271008) - 1391747234
  let E74 := v68 + 984505311
  let v74 := v73 ^^^ (-958771333 * E74 - ((-1917542666 * E74 + 334763446) &&& 882437092)
      + 1682342093)
  let v75 := v74 ^^^ v70
  let Q76 := (v74 ^^^ 1968178850) - v72 - 537026833
  let v76 := (Q76 ^^^ 2140666807) + 2 * (Q76 &&& 4288150455)
  let R77 := v73 ^^^ 1864135504
  let v77 := v75 ^^^ (R77 + 2146327243 - (v71 + ((2 * (R77 - v71) + 135526740) &&& 4157127746)))
      ^^^ 612647496
  let S78 := v77 + (v75 ^^^ 1600134249)
  let v78 := (S78 ^^^ 1588557287) + 2 * (S78 &&& 3736040935)
  let T79 := v76 - v78
  let v79 := T79 + 1508690144 - ((2 * T79 - 1104219040) &&& 4121599328)
  let v80 := v64 ^^^ v79
  let U := v76 - v78
  store 144 ((v64 ^^^ (U - 32 - ((2 * U + 96) &&& 96))) &&& 0xFF)
  store 536 (((v64 ^^^ (U - 14112 - ((2 * U - 2976) &&& 40288))) >>> 8) &&& 0xFF)
  store 80 v80
  let V81 := v77 + (v79 ^^^ 2234167631)
  let v81 := V81 + 1119217315 - ((2 * V81 + 2) &&& 2238434628)
  let W82 := v77 + (v79 ^^^ 79)
  let mut v82 := (v58 ^^^ (W82 - 93 - ((2 * W82 + 2) &&& 68))) &&& 0xFF
  store 592 (((v58 ^^^ v81) >>> 8) &&& 0xFF)
  let v83 := v58 ^^^ v81
  let X84 := v72 - v76 + (v81 ^^^ 1119217314) - 1617273656
  let v84 := v72 + (v81 ^^^ 1119217314) - 71678430 - (v76 + ((2 * X84) &&& 3091190452))
  let v85 := (← load 72) ^^^ (v78 + (v84 ^^^ 2749372069)
      - ((2 * (v78 + (v84 ^^^ 2749372069)) + 1117852724) &&& 3287839780) + 55362604)
  store 72 (v85 &&& 0xFF)
  store 600 ((v85 >>> 8) &&& 0xFF)
  let v86 := v84 ^^^ v67
  let v87 := (v84 ^^^ v67) &&& 0xFF
  let v88 := (← t4 ctx 20208 ((((v84 ^^^ v67) >>> 8) &&& 0xFF) ^^^ 116))
      ^^^ (← t4 ctx 13328 (((v80 >>> 24) &&& 0xFF) ^^^ 52))
  let v89 := (← ctxb ctx (12000 + ((← load 1016) &&& 255)).toNat) ^^^ 77
  let v90 := ((v89 - ((2 * v89) &&& 4294967246)) <<< 16 + 1927741440) ^^^ 1927741440
  let v91 := v90 - ((2 * v90) &&& 1701707776) + 850878913
  let v92_ := (← ctxb ctx (12000 + ((← load 1888) &&& 255)).toNat) ^^^ 77
  let v92 := ((v92_ - 2 * (v92_ &&& 72)) <<< 8 + 692537344) ^^^ 692537344
  let v93 := (← ctxb ctx (12000 + ((← load 1496) &&& 255)).toNat) ^^^ 77
  let v94 := (v91 ^^^ 850878913) ||| ((v92 - ((2 * v92) &&& 113383936) + 56692118) ^^^ 56692118)
  let v95 := ((v94 - ((2 * v94) &&& 2904678294) + 1452339147) ^^^ 1452339147)
      ||| ((v93 - ((2 * v93) &&& 4294967204) + 546806738) ^^^ 546806738)
  let v96 := ((v95 - ((2 * v95) &&& 8706488)) <<< 8 - 1033053184) ^^^ 3261914112
  let v97 := (← ctxb ctx (12000 + ((← load 1352) &&& 255)).toNat) ^^^ 77
  let v98 := ((v96 - ((2 * v96) &&& 538448384) + 269224321) ^^^ 269224321)
      ||| ((v97 - ((2 * v97) &&& 34) + 337476881) ^^^ 337476881)
  let v82_orig := v82
  let t_v99_1 ← t4 ctx 15728 (((v85 >>> 16) &&& 0xFF) ^^^ 253)
  let t_v99_2 ← t4 ctx 17040 (v82 ^^^ 241)
  let t_v99_3 := v98 - ((2 * v98) &&& 3451084460) + 1725542230
  let v99 := t_v99_1 ^^^ t_v99_2 ^^^ t_v99_3 ^^^ v88
  v82 := ((← load 400) ^^^ ((v99 >>> 16) &&& 0xFF)) &&& 0xFF
  let v100 := (← ctxb ctx (12000 + ((← load 1072) &&& 255)).toNat) ^^^ 77
  let v101 := (← ctxb ctx (12000 + ((← load 1792) &&& 255)).toNat) ^^^ 77
  let v102 := ((v100 - ((2 * (v100 &&& 0xFFFF)) &&& 270)) <<< 16 + 663158784) ^^^ 663158784
  let v103 := ((v101 - ((2 * v101) &&& 118)) <<< 8 + 367672064) ^^^ 367672064
  let v104 := ((v102 - ((2 * v102) &&& 60424192) + 30242461) ^^^ 30242461)
      ||| ((v103 - ((2 * v103) &&& 3978089472) + 1989044914) ^^^ 1989044914)
  let v105a := (← ctxb ctx (12000 + ((← load 1400) &&& 255)).toNat) ^^^ 77
  let v105 := ((v104 - ((2 * v104) &&& 1342383676) + 671191838) ^^^ 671191838)
      ||| ((-2 * (v105a &&& 125) + v105a + 1584867709) ^^^ 1584867709)
  let v106 := ((v105 - ((2 * v105) &&& 1020128)) <<< 8 + 130576384) ^^^ 130576384
  let v107 := v106 - ((2 * v106) &&& 2195466752) + 1097733493
  let v108 := (← ctxb ctx (12000 + ((← load 1296) &&& 255)).toNat) ^^^ 77
  let v109 := (v107 ^^^ 1097733493)
      ||| ((v108 - ((2 * v108) &&& 4294967184) + 1889216968) ^^^ 1889216968)
  let v110 := (← t4 ctx 20208 ((← load 600) ^^^ 26))
      ^^^ (v109 - ((2 * v109) &&& 698578664) + 349289332)
      ^^^ (← t4 ctx 15728 ((((← load 80) >>> 16) &&& 0xFF) ^^^ 160))
      ^^^ (← t4 ctx 17040 (v87 ^^^ 122)) ^^^ (← t4 ctx 13328 (((v83 >>> 24) &&& 0xFF) ^^^ 228))
  let v111 := (← t4 ctx 17040 ((← load 144) ^^^ 224))
      ^^^ (← t4 ctx 15728 (((v86 >>> 16) &&& 0xFF) ^^^ 58))
      ^^^ (← t4 ctx 13328 (((v85 >>> 24) &&& 0xFF) ^^^ 131))
      ^^^ (← t4 ctx 20208 ((← load 592) ^^^ 235))
  let v112 := (← t4 ctx 17040 ((← load 72) ^^^ 31)) ^^^ (← t4 ctx 20208 ((← load 536) ^^^ 56))
      ^^^ (← t4 ctx 15728 (((v83 >>> 16) &&& 0xFF) ^^^ 167))
      ^^^ (← t4 ctx 13328 (((v86 >>> 24) &&& 0xFF) ^^^ 117))
  let pt0 := (← ctxb ctx (0x5300 + ((((← load 376) &&& 0xFF) ^^^ ((v99 >>> 24) &&& 0xFF) ^^^ 14)
      &&& 0xFF).toNat)) ^^^ 118
  let v113 ← ctxb ctx (12000 + ((← load 1240) &&& 255)).toNat
  store 144 (← ctxb ctx (12000 + ((← load 1472) &&& 255)).toNat)
  let v114 ← ctxb ctx (12000 + ((← load 1600) &&& 255)).toNat
  let v115 ← ctxb ctx (12000 + ((← load 1904) &&& 255)).toNat
  let v116 ← ctxb ctx (12000 + ((← load 1920) &&& 255)).toNat
  store 72 (← ctxb ctx (12000 + ((← load 1376) &&& 255)).toNat)
  let v117 ← ctxb ctx (12000 + ((← load 1856) &&& 255)).toNat
  let v118 ← ctxb ctx (12000 + ((← load 840) &&& 255)).toNat
  let v119 ← load 1896
  let v120 := ((((v118 ^^^ 77) &&& 0xFF) - 2 * ((v118 ^^^ 77) &&& 0xFF &&& 96)) <<< 16
      - 547356672) ^^^ 3747610624
  let v121 := ((((v115 ^^^ 77) &&& 0xFF) - 2 * ((v115 ^^^ 77) &&& 0xFF &&& 109)) <<< 8
      - 2140443392) ^^^ 2154523904
  let v122 := ((v120 - ((2 * v120) &&& 1139277824) + 569701879) ^^^ 569701879)
      ||| ((v121 - ((2 * v121) &&& 3359549952) + 1679775141) ^^^ 1679775141)
  let v123 := ((v122 - ((2 * v122) &&& 353953114) + 176976557) ^^^ 176976557)
      ||| ((((v116 ^^^ 77) &&& 0xFF) - ((2 * ((v116 ^^^ 77) &&& 0xFF)) &&& 22) + 493261067)
      ^^^ 493261067)
  let v124 := ((v123 - ((2 * v123) &&& 6557006)) <<< 8 + 839296768) ^^^ 839296768
  let v125 := ((v124 - ((2 * v124) &&& 2717907968) + 1358954085) ^^^ 1358954085)
      ||| ((((v117 ^^^ 77) &&& 0xFF) - ((2 * ((v117 ^^^ 77) &&& 0xFF)) &&& 124) + 1808961342)
      ^^^ 1808961342)
  let v126 := (v125 - ((2 * v125) &&& 2714406846) + 1357203423) ^^^ v112
  let v127 := ((((v113 ^^^ 77) &&& 0xFF) - ((2 * ((v113 ^^^ 77) &&& 0xFFFF)) &&& 312)) <<< 16
      - 862191616) ^^^ 3432775680
  let v128 := v127 - ((2 * v127) &&& 4147773440) + 2073892185
  let v129 := (((v114 ^^^ 77) - ((2 * (v114 ^^^ 77)) &&& 4294967260)) <<< 8 + 1970662912)
      ^^^ 1970662912
  let v132 := (v128 ^^^ 2073892185)
      ||| ((v129 - ((2 * v129) &&& 2689862144) + 1344931139) ^^^ 1344931139)
  let st48x := (← load 72) ^^^ 77
  let v133 := ((v132 - ((2 * v132) &&& 2927628820) + 1463814410) ^^^ 1463814410)
      ||| ((st48x - ((2 * (st48x &&& 0xFFFF)) &&& 350) + 780077999) ^^^ 780077999)
  let v134 := ((v133 - ((2 * v133) &&& 13336694)) <<< 8 + 1707096832) ^^^ 1707096832
  let st90x := (← load 144) ^^^ 77
  let v135 := ((v134 - ((2 * v134) &&& 4107128832) + 2053564580) ^^^ 2053564580)
      ||| ((st90x - 2 * (st90x &&& 0xFF &&& 74) + 1490959946) ^^^ 1490959946)
  let v136 := (v135 - ((2 * v135) &&& 188678502) + 94339251) ^^^ v111
  let pt := #v[
    ((← load 120), wordByte (pt0 &&& 0xFF)),
    ((← load 560), wordByte (((← ctxb ctx (0x5300 + (((v82 &&& 0xFF) ^^^ 147) &&& 0xFF).toNat))
        ^^^ 118) &&& 0xFF)),
    ((← load 152), wordByte (((← ctxb ctx (0x5300
        + ((((← load 280) &&& 0xFF) ^^^ ((v99 >>> 8) &&& 0xFF) ^^^ 35) &&& 0xFF).toNat)) ^^^ 118)
        &&& 0xFF)),
    ((← load 528), wordByte (((← ctxb ctx (0x5300
        + ((((← load 992) &&& 0xFF) ^^^ (v99 &&& 0xFF) ^^^ 44) &&& 0xFF).toNat)) ^^^ 118)
        &&& 0xFF)),
    ((← load 408), wordByte (((← ctxb ctx (0x5300
        + ((((← load 352) &&& 0xFF) ^^^ ((v110 >>> 24) &&& 0xFF) ^^^ 124) &&& 0xFF).toNat))
        ^^^ 118) &&& 0xFF)),
    ((← load 176), wordByte (((← ctxb ctx (0x5300
        + ((((← load 392) &&& 0xFF) ^^^ ((v110 >>> 16) &&& 0xFF) ^^^ 155) &&& 0xFF).toNat))
        ^^^ 118) &&& 0xFF)),
    ((← load 432), wordByte (((← ctxb ctx (0x5300
        + ((((← load 224) &&& 0xFF) ^^^ ((v110 >>> 8) &&& 0xFF) ^^^ 55) &&& 0xFF).toNat)) ^^^ 118)
        &&& 0xFF)),
    ((← load 608), wordByte (((← ctxb ctx (0x5300
        + ((((← load 288) &&& 0xFF) ^^^ (v110 &&& 0xFF) ^^^ 14) &&& 0xFF).toNat)) ^^^ 118)
        &&& 0xFF)),
    ((← load 544), wordByte (((← ctxb ctx (0x5300
        + ((((← load 256) &&& 0xFF) ^^^ ((v126 >>> 24) &&& 0xFF) ^^^ 56) &&& 0xFF).toNat))
        ^^^ 118) &&& 0xFF)),
    ((← load 344), wordByte (((← ctxb ctx (0x5300
        + ((((← load 208) &&& 0xFF) ^^^ ((v126 >>> 16) &&& 0xFF) ^^^ 175) &&& 0xFF).toNat))
        ^^^ 118) &&& 0xFF)),
    ((← load 424), wordByte (((← ctxb ctx (0x5300
        + ((((← load 248) &&& 0xFF) ^^^ ((v126 >>> 8) &&& 0xFF) ^^^ 203) &&& 0xFF).toNat))
        ^^^ 118) &&& 0xFF)),
    ((← load 416), wordByte (((← ctxb ctx (0x5300
        + ((((← load 264) &&& 0xFF) ^^^ (v126 &&& 0xFF) ^^^ 165) &&& 0xFF).toNat)) ^^^ 118)
        &&& 0xFF)),
    ((← load 448), wordByte (((← ctxb ctx (0x5300
        + ((((← load 240) &&& 0xFF) ^^^ ((v136 >>> 24) &&& 0xFF) ^^^ 109) &&& 0xFF).toNat))
        ^^^ 118) &&& 0xFF)),
    ((← load 440), wordByte (((← ctxb ctx (0x5300
        + ((((← load 232) &&& 0xFF) ^^^ ((v136 >>> 16) &&& 0xFF) ^^^ 213) &&& 0xFF).toNat))
        ^^^ 118) &&& 0xFF)),
    ((← load 696), wordByte (((← ctxb ctx (0x5300
        + ((((← load 1040) &&& 0xFF) ^^^ ((v136 >>> 8) &&& 0xFF) ^^^ 12) &&& 0xFF).toNat))
        ^^^ 118) &&& 0xFF)),
    ((← load 736), wordByte (((← ctxb ctx (0x5300
        + ((((← load 192) &&& 0xFF) ^^^ (v136 &&& 0xFF) ^^^ 201) &&& 0xFF).toNat)) ^^^ 118)
        &&& 0xFF))]
  chainCopies.forM fun (dst, src) => do
    store dst ((← load dst) &&& 0xFFFFFF00 ||| (← load src) &&& 0xFF)
  return { pt }

end Temari.Round3

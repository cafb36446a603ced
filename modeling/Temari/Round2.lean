import Temari.RoundMachine

/-! Round 2 of the block pipeline, `round2_sub6400`: table lookups over the round 1
values, with the slots of `st` as scratch space. -/
set_option linter.unusedVariables false
set_option maxRecDepth 4000
namespace Temari.Round2
open RoundMachine

/-- `cp12` keeps st[0x48], st[0x250] and st[0x290] as they are at the snapshot point. -/
structure Round2Vars where
  cp12 : Vector Word 3
  v171 : Word
  v187 : Word
  v189 : Word

def round2Sub6400 (ctx : Bytes) (a1 a2 a3 a4 a5 a6 v6 v7 v9 v10 v11 v12 v13 v14 : Word) :
    Round Round2Vars := do
  let v14 := (← t4 ctx 19136 v6) ^^^ v7
  let v15 := (← t4 ctx 18080 (a2 ^^^ 93)) ^^^ (← t4 ctx 12272 (((v11 >>> 16) &&& 0xFF) ^^^ 197))
      ^^^ (← load 1568) ^^^ (← t4 ctx 19136 ((((← load 536) >>> 24) &&& 0xFF) ^^^ 115))
  let v16 := (← t4 ctx 18080 (v13 ^^^ 225)) ^^^ (← t4 ctx 14672 (((v9 ^^^ a5) &&& 0xFF) ^^^ 77))
      ^^^ (← t4 ctx 19136 (((v10 >>> 24) &&& 0xFF) ^^^ 50)) ^^^ (← load 1704)
      ^^^ (← t4 ctx 12272 ((((← load 80) >>> 16) &&& 0xFF) ^^^ 209))
  store 656 ((v16 >>> 8) &&& 0xFF)
  store 80 v16
  let v17 := (← t4 ctx 12272 (((a3 >>> 16) &&& 0xFF) ^^^ 191)) ^^^ (← load 1552)
      ^^^ (← t4 ctx 19136 (((a6 >>> 24) &&& 0xFF) ^^^ 38))
  let v18 := (← t4 ctx 14672 ((((← load 592) ^^^ v12) &&& 0xFF) ^^^ 77)) ^^^ v15
  store 536 (v18 &&& 0xFF)
  store 592 ((v18 >>> 8) &&& 0xFF)
  let v19 := (← ctxb ctx (0x2ee0 + ((← load 768) &&& 0xFF).toNat)) ^^^ 77
  let v20 := ((v19 - ((2 * (v19 &&& 0xFFFF)) &&& 344)) <<< 16 - 743702528) ^^^ 3551264768
  let v21a := (← ctxb ctx (0x2ee0 + ((← load 1648) &&& 0xFF).toNat)) ^^^ 77
  let v21 := ((v21a - 2 * (v21a &&& 67)) <<< 8 - 2034285824) ^^^ 2260681472
  let v22 := (← ctxb ctx (0x2ee0 + ((← load 1160) &&& 0xFF).toNat)) ^^^ 77
  let v23 := ((v20 - ((2 * v20) &&& 3317563392) + 1658802653) ^^^ 1658802653)
      ||| ((v21 - ((2 * v21) &&& 1968576512) + 984288483) ^^^ 984288483)
  let v24 := ((v23 - ((2 * v23) &&& 3528632666) + 1764316333) ^^^ 1764316333)
      ||| ((v22 - ((2 * (v22 &&& 0xFFFF)) &&& 274) + 676605065) ^^^ 676605065)
  let v25 := ((v24 - ((2 * v24) &&& 3800842)) <<< 8 - 1660975872) ^^^ 2633991424
  let v26 := (← ctxb ctx (0x2ee0 + ((← load 1152) &&& 0xFF).toNat)) ^^^ 77
  let v27 := ((v25 - ((2 * v25) &&& 3173678080) + 1586839109) ^^^ 1586839109)
      ||| ((v26 - ((2 * v26) &&& 4294967218) + 277073881) ^^^ 277073881)
  let v28 := (v27 - ((2 * v27) &&& 8337716) + 4168858) ^^^ (← t4 ctx 18080 ((← load 600) ^^^ 37))
      ^^^ v14
  let v29 := ((v27 - ((2 * v27) &&& 52) - 102)
      ^^^ ((← t4 ctx 18080 ((← load 600) ^^^ 37)) &&& 0xFF) ^^^ v14) &&& 0xFF
  let v30 := (((v27 - ((2 * v27) &&& 14644) - 25446)
      ^^^ ((← t4 ctx 18080 ((← load 600) ^^^ 37)) &&& 0xFFFF) ^^^ v14) >>> 8) &&& 0xFF
  let v31 := (← t4 ctx 14672 ((((← load 72) ^^^ (← load 144)) &&& 0xFF) ^^^ 77))
      ^^^ (← t4 ctx 18080 ((← load 616) ^^^ 68)) ^^^ v17
  store 72 (v31 &&& 0xFF)
  let v32 := (← t4 ctx 18080 (v30 ^^^ 227)) ^^^ (← t4 ctx 12272 (((v31 >>> 16) &&& 0xFF) ^^^ 223))
      ^^^ (← t4 ctx 14672 ((v16 &&& 0xFF) ^^^ 14)) ^^^ (← load 1760)
      ^^^ (← t4 ctx 19136 (((v18 >>> 24) &&& 0xFF) ^^^ 84))
  let v33 := (← t4 ctx 18080 (((v31 >>> 8) &&& 0xFF) ^^^ 89))
      ^^^ (← t4 ctx 19136 (((v16 >>> 24) &&& 0xFF) ^^^ 58)) ^^^ (← load 1560)
      ^^^ (← t4 ctx 12272 (((v18 >>> 16) &&& 0xFF) ^^^ 85))
  let v34 := v32
  store 144 (v32 &&& 0xFF)
  let mut v35 := (v32 >>> 8) &&& 0xFF
  store 648 v32
  let v36 := (← t4 ctx 14672 (v29 ^^^ 40)) ^^^ v33
  store 616 (v36 &&& 0xFF)
  let v37 := (← t4 ctx 18080 ((← load 656) ^^^ 143))
      ^^^ (← t4 ctx 12272 (((v28 >>> 16) &&& 0xFF) ^^^ 41)) ^^^ (← load 1720)
      ^^^ (← t4 ctx 19136 (((v31 >>> 24) &&& 0xFF) ^^^ 23))
  let v38 := (← ctxb ctx (0x2ee0 + ((← load 704) &&& 0xFF).toNat)) ^^^ 77
  let v39 := (← ctxb ctx (0x2ee0 + ((← load 1688) &&& 0xFF).toNat)) ^^^ 77
  let v40 := ((v38 - ((2 * (v38 &&& 0xFF)) &&& 96)) <<< 16 - 1053818880) ^^^ 3241148416
  let v41 := ((v39 - ((2 * v39) &&& 4294967288)) <<< 8 + 811727872) ^^^ 811727872
  let v42 := ((v40 - ((2 * v40) &&& 3883925504) + 1941969522) ^^^ 1941969522)
      ||| ((v41 - ((2 * v41) &&& 3910813696) + 1955406924) ^^^ 1955406924)
  let v43a := (← ctxb ctx (0x2ee0 + ((← load 1120) &&& 0xFF).toNat)) ^^^ 77
  let v43 := ((v42 - ((2 * v42) &&& 3309600338) + 1654800169) ^^^ 1654800169)
      ||| ((-2 * (v43a &&& 76) + v43a + 700757580) ^^^ 700757580)
  let Q44 := (v43 - ((2 * v43) &&& 1511450)) <<< 8 + 193465600
  let v44 := (Q44 ^^^ 193465600) - ((2 * Q44) &&& 2150621184)
  let v45 := (← ctxb ctx (0x2ee0 + ((← load 1248) &&& 0xFF).toNat)) ^^^ 77
  let v46 := ((v44 + 1075310723) ^^^ 1075310723)
      ||| ((v45 - ((2 * (v45 &&& 0xFF)) &&& 58) + 1882307613) ^^^ 1882307613)
  let v47 := (← t4 ctx 14672 ((← load 536) ^^^ 101)) ^^^ v37
  let v48 := (← t4 ctx 12272 ((((← load 80) >>> 16) &&& 0xFF) ^^^ 188))
      ^^^ (← t4 ctx 19136 (((v28 >>> 24) &&& 0xFF) ^^^ 107))
      ^^^ (← t4 ctx 18080 ((← load 592) ^^^ 203)) ^^^ (← t4 ctx 14672 ((← load 72) ^^^ 245))
      ^^^ (v46 - ((2 * v46) &&& 2523586718) + 1261793359)
  let v49 := v48 &&& 0xFF
  let v50 := (v48 >>> 8) &&& 0xFF
  let v51 := (v48 >>> 16) &&& 0xFF
  store 72 ((← t4 ctx 18080 (((v36 >>> 8) &&& 0xFF) ^^^ 132)) ^^^ (← load 1632)
      ^^^ (← t4 ctx 19136 (((v47 >>> 24) &&& 0xFF) ^^^ 91)))
  let v52 := (← ctxb ctx (0x2ee0 + ((← load 880) &&& 0xFF).toNat)) ^^^ 77
  let v53 := (← ctxb ctx (0x2ee0 + ((← load 1752) &&& 0xFF).toNat)) ^^^ 77
  let v54 := ((v52 - ((2 * (v52 &&& 0xFFFF)) &&& 346)) <<< 16 + 967639040) ^^^ 967639040
  let v55 := ((v53 - ((2 * (v53 &&& 0xFF)) &&& 30)) <<< 8 + 1189809920) ^^^ 1189809920
  let v56 := ((v54 - ((2 * v54) &&& 673316864) + 336663224) ^^^ 336663224)
      ||| ((v55 - ((2 * v55) &&& 3933307392) + 1966653844) ^^^ 1966653844)
  let v57a := (← ctxb ctx (0x2ee0 + ((← load 1136) &&& 0xFF).toNat)) ^^^ 77
  let v57 := ((v56 - ((2 * v56) &&& 2910652950) + 1455326475) ^^^ 1455326475)
      ||| ((v57a - 2 * (v57a &&& 120) + 2126547064) ^^^ 2126547064)
  let v58 := ((v57 - ((2 * v57) &&& 5974418)) <<< 8 + 764725504) ^^^ 764725504
  let v59a := (← ctxb ctx (0x2ee0 + ((← load 1256) &&& 0xFF).toNat)) ^^^ 77
  let v59 := ((v58 - ((2 * v58) &&& 2702534144) + 1351267313) ^^^ 1351267313)
      ||| ((v59a - 2 * (v59a &&& 103) + 737772903) ^^^ 737772903)
  let v60 := v59 - ((2 * v59) &&& 489701898) + 244850949
  let v61 := (((v47 &&& 0xFF) ^^^ 86) - ((2 * (v47 &&& 0xFF)) &&& 82) + 1245518377) ^^^ 2388138016
  let v62 := (← t4 ctx 12272 (((v36 >>> 16) &&& 0xFF) ^^^ 4)) ^^^ v60
      ^^^ (← t4 ctx 19136 (((v48 >>> 24) &&& 0xFF) ^^^ 32))
      ^^^ (← t4 ctx 14672 ((v61 - ((2 * v61) &&& 138544394) + 119752325) ^^^ 3276162215))
  let v63 := (v47 >>> 8) &&& 0xFF
  let v64 := (← t4 ctx 19136 (((v34 >>> 24) &&& 0xFF) ^^^ 84)) ^^^ (← load 1416)
      ^^^ (← t4 ctx 12272 (((v47 >>> 16) &&& 0xFF) ^^^ 209))
  let v65 := (← t4 ctx 18080 (v35 ^^^ 13)) ^^^ v62
  let v66 := v65 &&& 0xFF
  store 600 ((v65 >>> 8) &&& 0xFF)
  v35 := (v35 &&& 4294902015) ||| (((v65 >>> 16) &&& 0xFF &&& 255) <<< 16)
  let v67 := (← t4 ctx 14672 (v49 ^^^ 253))
      ^^^ (← t4 ctx 12272 ((((← load 648) >>> 16) &&& 0xFF) ^^^ 239))
      ^^^ (← t4 ctx 19136 (((v36 >>> 24) &&& 0xFF) ^^^ 60)) ^^^ (← load 1384)
      ^^^ (← t4 ctx 18080 (v63 ^^^ 216))
  let v68 := (← ctxb ctx (0x2ee0 + ((← load 1728) &&& 0xFF).toNat)) ^^^ 77
  let v69a := (← ctxb ctx (0x2ee0 + ((← load 688) &&& 0xFF).toNat)) ^^^ 77
  let v69 := ((v69a - 2 * (v69a &&& 126)) <<< 16 - 1048707072) ^^^ 3246260224
  let v70 := ((v68 - ((2 * (v68 &&& 0xFFFF)) &&& 308)) <<< 8 + 1025546752) ^^^ 1025546752
  let v71 := ((v69 - ((2 * v69) &&& 3642621952) + 1821358079) ^^^ 1821358079)
      ||| ((v70 - ((2 * v70) &&& 3020582912) + 1510291630) ^^^ 1510291630)
  let v72 := v71 - ((2 * v71) &&& 451561156) + 225780578
  let v73 := (← ctxb ctx (0x2ee0 + ((← load 1104) &&& 0xFF).toNat)) ^^^ 77
  let v74 := (v72 ^^^ 225780578) ||| ((v73 - ((2 * (v73 &&& 0xFFFF)) &&& 328) + 1522654884)
      ^^^ 1522654884)
  let v75 := ((v74 - ((2 * v74) &&& 6246992)) <<< 8 + 799614976) ^^^ 799614976
  let v76a := (← ctxb ctx (0x2ee0 + ((← load 1144) &&& 0xFF).toNat)) ^^^ 77
  let v76 := ((v75 - ((2 * v75) &&& 2589066240) + 1294533343) ^^^ 1294533343)
      ||| ((v76a - 2 * (v76a &&& 73) + 1866649673) ^^^ 1866649673)
  let v77 := (← t4 ctx 14672 ((← load 616) ^^^ 50)) ^^^ (← t4 ctx 18080 (v50 ^^^ 15)) ^^^ v64
  let v78 := (← t4 ctx 14672 ((← load 144) ^^^ 178)) ^^^ (← t4 ctx 12272 (v51 ^^^ 35))
      ^^^ (← load 72)
  let v79 := (← t4 ctx 18080 (((v77 >>> 8) &&& 0xFF) ^^^ 147))
      ^^^ (v76 - ((2 * v76) &&& 3975661492) + 1987830746)
      ^^^ (← t4 ctx 14672 ((v78 &&& 0xFF) ^^^ 80))
      ^^^ (← t4 ctx 19136 (((v65 >>> 24) &&& 0xFF) ^^^ 101))
      ^^^ (← t4 ctx 12272 (((v67 >>> 16) &&& 0xFF) ^^^ 42))
  let v80 := v77 &&& 0xFF
  let v81 := v77
  let v82 := (← t4 ctx 18080 (((v78 >>> 8) &&& 0xFF) ^^^ 139))
      ^^^ (← t4 ctx 12272 (((v77 >>> 16) &&& 0xFF) ^^^ 136)) ^^^ (← load 1512)
      ^^^ (← t4 ctx 19136 (((v67 >>> 24) &&& 0xFF) ^^^ 73))
  let v83 := (← t4 ctx 19136 (((v78 >>> 24) &&& 0xFF) ^^^ 110)) ^^^ (← load 1536)
      ^^^ (← t4 ctx 12272 (((v35 >>> 16) &&& 0xFF) ^^^ 142))
  store 680 v79
  store 536 (v79 &&& 0xFF)
  store 72 ((v79 >>> 8) &&& 0xFF)
  store 80 v79
  let v84 := (← t4 ctx 18080 (((v67 >>> 8) &&& 0xFF) ^^^ 237)) ^^^ v83
  let mut v85 := (← t4 ctx 14672 (v66 ^^^ 183)) ^^^ v82
  let v86 := (v78 >>> 16) &&& 0xFF
  let v87 := (← t4 ctx 14672 ((v67 &&& 0xFF) ^^^ 111))
      ^^^ (← t4 ctx 19136 (((v81 >>> 24) &&& 0xFF) ^^^ 83)) ^^^ (← load 1480)
      ^^^ (← t4 ctx 18080 ((← load 600) ^^^ 94))
  let v88 := (v85 >>> 16) &&& 0xFF
  store 720 (v85 &&& 0xFF)
  store 624 ((v85 >>> 8) &&& 0xFF)
  store 144 v85
  let v89 := (← t4 ctx 14672 (v80 ^^^ 13)) ^^^ v84
  let v90 := (← t4 ctx 12272 (v86 ^^^ 250)) ^^^ v87
  store 616 (v90 &&& 0xFF)
  store 648 ((v90 >>> 8) &&& 0xFF)
  let v91 := v89
  store 640 (v89 &&& 0xFF)
  store 656 ((v89 >>> 8) &&& 0xFF)
  let v92 := (← ctxb ctx (0x2ee0 + ((← load 1664) &&& 0xFF).toNat)) ^^^ 77
  let v93a := (← ctxb ctx (0x2ee0 + ((← load 848) &&& 0xFF).toNat)) ^^^ 77
  let v93 := ((v93a - 2 * (v93a &&& 100)) <<< 16 + 342097920) ^^^ 342097920
  let v94 := ((v92 - ((2 * (v92 &&& 0xFFFF)) &&& 316)) <<< 8 + 1407426048) ^^^ 1407426048
  let mut v85lo := (← ctxb ctx (0x2ee0 + ((← load 976) &&& 0xFF).toNat)) ^^^ 77
  v85lo := v85lo - 2 * (v85lo &&& 107)
  let v95 := ((v93 - ((2 * v93) &&& 2842951680) + 1421493819) ^^^ 1421493819)
      ||| ((v94 - ((2 * v94) &&& 559009280) + 279504788) ^^^ 279504788)
  let v96 := v95 - ((2 * v95) &&& 3802831384) + 1901415692
  let v97 := (← ctxb ctx (0x2ee0 + ((← load 832) &&& 0xFF).toNat)) ^^^ 77
  let v98 := (v96 ^^^ 1901415692)
      ||| ((v97 - ((2 * (v97 &&& 0xFFFF)) &&& 298) + 360155541) ^^^ 360155541)
  let v99 := ((v98 - ((2 * v98) &&& 13040996)) <<< 8 + 1669247488) ^^^ 1669247488
  let v100a := (← ctxb ctx (0x2ee0 + ((← load 744) &&& 0xFF).toNat)) ^^^ 77
  let v100 := ((v99 - ((2 * v99) &&& 2036788224) + 1018394297) ^^^ 1018394297)
      ||| ((v100a - 2 * (v100a &&& 86) + 704377174) ^^^ 704377174)
  let v101 ← t4 ctx 12272 (((v89 >>> 16) &&& 0xFF) ^^^ 117)
  let v102 := v101 &&& 1
  let v103 := (2 * v102) ^^^ 2
  let v104 := 740975584 - (v103 + v102)
  let X ← ctxb ctx (0x2ee0 + ((← load 968) &&& 0xFF).toNat)
  store 600 (((((X >>> 7) ||| (2 * (X ^^^ 77))) >>> 1)
      ||| ((((X >>> 7) ||| (2 * (X ^^^ 77))) &&& 1) <<< 7)) &&& 0xFF)
  store 592 (v85lo <<< 16)
  v85 := ((← load 80) >>> 24) &&& 0xFF
  let v105 := ((← load 680) >>> 16) &&& 0xFFFF
  store 144 ((((← load 144) >>> 24) &&& 0xFF) ^^^ 84)
  store 80 (v85 ^^^ 29)
  store 72 ((← load 72) ^^^ 156)
  store 680 (((v90 >>> 16) &&& 0xFF) ^^^ 19)
  let v106 := ((v91 >>> 24) &&& 0xFF) ^^^ 30
  let v107 := (← load 1592) ^^^ (← t4 ctx 19136 (((v90 >>> 24) &&& 0xFF) ^^^ 44)) ^^^ 1286531482
  let v108 := (((v101 &&& 4294967294) ^^^ 3469270460)
      - ((2 * ((v101 &&& 4294967294) ^^^ 3469270460)) &&& 62359812) + 31179907) ^^^ 13620642
  let v109 := v107 &&& (v103 + v102 - 1)
  let mut v110 := v103 + v102 + 740975582
  v110 := if v109 != (2 * v109) &&& 3759507202 then v104 else v110
  let v111 := (← t4 ctx 18080 ((← load 624) ^^^ 93)) ^^^ (← t4 ctx 19136 (v106 ^^^ 0))
      ^^^ (← load 1544) ^^^ (← t4 ctx 12272 ((v105 &&& 0xFF) ^^^ 109))
  let v112 := (← t4 ctx 14672 ((← load 640) ^^^ 178))
      ^^^ (v100 - ((2 * v100) &&& 3159335156) + 1579667578)
      ^^^ (← t4 ctx 19136 ((← load 80) ^^^ 0)) ^^^ (← t4 ctx 12272 (v88 ^^^ 141))
  let v113 := (v110 + v107 + 1013393780 - ((2 * (v107 + v110) - 1481951166) &&& 3508738726))
      ^^^ (v108 - ((2 * v108) &&& 2184977834) - 1054994731)
      ^^^ (← t4 ctx 18080 ((← load 72) ^^^ 0)) ^^^ (← t4 ctx 14672 ((← load 720) ^^^ 172))
  store 80 ((v113 >>> 8) &&& 0xFF)
  let v114 := v113
  let v115 := (← t4 ctx 18080 ((← load 648) ^^^ 176)) ^^^ v112
  let v116 := (← t4 ctx 14672 ((← load 616) ^^^ 25)) ^^^ v111
  let v117 := (← t4 ctx 12272 ((← load 680) ^^^ 0)) ^^^ (← load 1368)
      ^^^ (← t4 ctx 19136 ((← load 144) ^^^ 0))
  let v118 := v116 &&& 0xFF
  store 72 v116
  store 648 ((v116 >>> 8) &&& 0xFF)
  let v119 := (← t4 ctx 18080 ((← load 656) ^^^ 123)) ^^^ (← t4 ctx 14672 ((← load 536) ^^^ 104))
      ^^^ v117
  store 656 ((v115 >>> 8) &&& 0xFF)
  let v120 := v115
  let mut v121 := (← t4 ctx 14672 ((v113 &&& 0xFF) ^^^ 206))
      ^^^ (← t4 ctx 12272 (((v115 >>> 16) &&& 0xFF) ^^^ 49))
      ^^^ (← t4 ctx 18080 (((v119 >>> 8) &&& 0xFF) ^^^ 162))
      ^^^ ((← load 1432) ^^^ (← t4 ctx 19136 (((v116 >>> 24) &&& 0xFF) ^^^ 91)))
  let v122 := (← t4 ctx 19136 (((v119 >>> 24) &&& 0xFF) ^^^ 15)) ^^^ (← load 1392)
      ^^^ (← t4 ctx 12272 (((v113 >>> 16) &&& 0xFF) ^^^ 14))
  store 144 v121
  let v123 := v121 &&& 0xFF
  let v124 := (v121 >>> 8) &&& 0xFF
  store 616 v121
  let v125 := (← t4 ctx 14672 ((v115 &&& 0xFF) ^^^ 200))
      ^^^ (← t4 ctx 18080 ((← load 648) ^^^ 147)) ^^^ v122
  store 536 (v125 &&& 0xFF)
  let v126 := (v125 >>> 16) &&& 0xFF
  store 680 ((v125 >>> 8) &&& 0xFF)
  let v127 := v125
  v121 := (← ctxb ctx (0x2ee0 + ((← load 1640) &&& 0xFF).toNat)) ^^^ 77
  let v128 := ((← load 592) + 527106048) ^^^ 527106048
  v121 := ((v121 - ((2 * v121) &&& 4294967176)) <<< 8 - 2022915072) ^^^ 2272052224
  let v129 := (← ctxb ctx (0x2ee0 + ((← load 784) &&& 0xFF).toNat)) ^^^ 77
  v121 := ((v128 - ((2 * v128) &&& 428212224) + 214147609) ^^^ 214147609)
      ||| ((v121 - ((2 * v121) &&& 4000672768) + 2000336521) ^^^ 2000336521)
  let v130 := ((v121 - ((2 * v121) &&& 2176489306) + 1088244653) ^^^ 1088244653)
      ||| ((v129 - ((2 * v129) &&& 4294967174) + 703209411) ^^^ 703209411)
  let v131 := ((v130 - ((2 * v130) &&& 14877810)) <<< 8 + 1904359680) ^^^ 1904359680
  let v132a := (← ctxb ctx (0x2ee0 + ((← load 1048) &&& 0xFF).toNat)) ^^^ 77
  let v132 := ((v131 - ((2 * v131) &&& 1782264832) + 891132662) ^^^ 891132662)
      ||| ((v132a - 2 * (v132a &&& 67) + 1824487235) ^^^ 1824487235)
  let v133 := (v132 - ((2 * v132) &&& 3880606522) + 1940303261)
      ^^^ (← t4 ctx 12272 (((v119 >>> 16) &&& 0xFF) ^^^ 68))
      ^^^ (← t4 ctx 19136 (((v120 >>> 24) &&& 0xFF) ^^^ 53)) ^^^ (← t4 ctx 14672 (v118 ^^^ 53))
      ^^^ (← t4 ctx 18080 ((← load 80) ^^^ 195))
  store 640 ((v133 >>> 8) &&& 0xFF)
  let v134 := (← t4 ctx 19136 (((v114 >>> 24) &&& 0xFF) ^^^ 107))
      ^^^ (← t4 ctx 18080 ((← load 656) ^^^ 175))
      ^^^ (← t4 ctx 12272 ((((← load 72) >>> 16) &&& 0xFF) ^^^ 23)) ^^^ (← load 1624)
      ^^^ (← t4 ctx 14672 ((v119 &&& 0xFF) ^^^ 157))
  let v135 := (← t4 ctx 14672 ((v133 &&& 0xFF) ^^^ 47))
      ^^^ (← t4 ctx 19136 (((v127 >>> 24) &&& 0xFF) ^^^ 58)) ^^^ (← t4 ctx 18080 (v124 ^^^ 22))
  store 656 v135
  v121 ← t4 ctx 12272 (((v134 >>> 16) &&& 0xFF) ^^^ 223)
  store 592 v121
  let v136 := v121 ^^^ (← load 1528) ^^^ v135
  store 72 v136
  store 648 (v136 &&& 0xFF)
  store 728 ((v136 >>> 8) &&& 0xFF)
  store 720 v136
  v121 := (← ctxb ctx (0x2ee0 + ((← load 856) &&& 0xFF).toNat)) ^^^ 77
  let v137 := (← ctxb ctx (0x2ee0 + ((← load 1656) &&& 0xFF).toNat)) ^^^ 77
  v121 := ((v121 - ((2 * (v121 &&& 0xFFFF)) &&& 356)) <<< 16 - 760086528) ^^^ 3534880768
  let v138 := ((v137 - ((2 * v137) &&& 4294967178)) <<< 8 + 1848689920) ^^^ 1848689920
  let v139 := ((v121 - ((2 * v121) &&& 836894720) + 418471143) ^^^ 418471143)
      ||| ((v138 - ((2 * v138) &&& 2672716288) + 1336358345) ^^^ 1336358345)
  v121 := v139 - ((2 * v139) &&& 129376378) + 64688189
  let v140 := (← ctxb ctx (0x2ee0 + ((← load 864) &&& 0xFF).toNat)) ^^^ 77
  let v141 := (v121 ^^^ 64688189)
      ||| ((v140 - ((2 * v140) &&& 4294967170) + 1037279425) ^^^ 1037279425)
  let v142 := ((v141 - ((2 * v141) &&& 6701204)) <<< 8 + 857754112) ^^^ 857754112
  v121 := v142 - ((2 * v142) &&& 2951641088) + 1475820579
  let v143 := (← ctxb ctx (0x2ee0 + ((← load 808) &&& 0xFF).toNat)) ^^^ 77
  let v144 := (v121 ^^^ 1475820579)
      ||| ((v143 - ((2 * (v143 &&& 0xFFFF)) &&& 318) + 1155245215) ^^^ 1155245215)
  let v145 := (← t4 ctx 12272 (v126 ^^^ 118))
      ^^^ (← t4 ctx 18080 (((v134 >>> 8) &&& 0xFF) ^^^ 109))
      ^^^ (← t4 ctx 19136 (((v133 >>> 24) &&& 0xFF) ^^^ 24)) ^^^ (← t4 ctx 14672 (v123 ^^^ 108))
  store 752 v145
  v121 := v145 ^^^ (v144 - ((2 * v144) &&& 3741799336) + 1870899668)
  store 816 v121
  store 624 ((v145 ^^^ (v144 - ((2 * v144) &&& 168) - 44)) &&& 0xFF)
  store 792 (((v145 ^^^ (v144 - ((2 * v144) &&& 21416) - 22060)) >>> 8) &&& 0xFF)
  store 80 v121
  let v146 ← t4 ctx 18080 ((← load 680) ^^^ 155)
  let v147 ← t4 ctx 18080 ((← load 640) ^^^ 210)
  v121 := ((((← load 600) &&& 0xFF) - ((2 * ((← load 600) &&& 0xFF)) &&& 65522)) <<< 16
      + 1895366656) ^^^ 1895366656
  let v148a := (← ctxb ctx (0x2ee0 + ((← load 1768) &&& 0xFF).toNat)) ^^^ 77
  let v148 := ((v148a - 2 * (v148a &&& 114)) <<< 8 - 127307264) ^^^ 4167660032
  let v149 := ((v121 - ((2 * v121) &&& 120717312) + 60367910) ^^^ 60367910)
      ||| ((v148 - ((2 * v148) &&& 2076494848) + 1038247536) ^^^ 1038247536)
  v121 := v149 - ((2 * v149) &&& 3725047524) + 1862523762
  let v150 := (← ctxb ctx (0x2ee0 + ((← load 800) &&& 0xFF).toNat)) ^^^ 77
  let v151 := (v121 ^^^ 1862523762)
      ||| ((v150 - ((2 * v150) &&& 4294967196) + 1194415566) ^^^ 1194415566)
  let v152 := ((← ctxb ctx (0x2ee0 + ((← load 920) &&& 0xFF).toNat)) ^^^ 77)
      - 2 * (((← ctxb ctx (0x2ee0 + ((← load 920) &&& 0xFF).toNat)) ^^^ 77) &&& 94)
  let v153 := (← ctxb ctx (0x2ee0 + ((← load 1056) &&& 0xFF).toNat)) ^^^ 77
  let v154 := v153 - ((2 * (v153 &&& 0xFFFF)) &&& 272)
  let v155 := (← t4 ctx 19136 (((v134 >>> 24) &&& 0xFF) ^^^ 24))
      ^^^ (← t4 ctx 12272 ((((← load 144) >>> 16) &&& 0xFF) ^^^ 191))
  let v156 := (← t4 ctx 12272 (((v133 >>> 16) &&& 0xFF) ^^^ 176))
      ^^^ (← t4 ctx 19136 ((((← load 616) >>> 24) &&& 0xFF) ^^^ 7))
      ^^^ (← t4 ctx 14672 ((v134 &&& 0xFF) ^^^ 128))
  let v157 := ((v147 &&& 4227858431) ^^^ 1210100942)
      - ((2 * ((v147 &&& 4227858431) ^^^ 1210100942)) &&& 378477084) + 189238542
  let v158 := v146 ^^^ (← load 1360) ^^^ v156
  store 144 v158
  let v159 := v146 ^^^ (← load 1456) ^^^ v156
  v121 := v147 ^^^ (← load 1440) ^^^ v155
  let v160 := v147 &&& 67108864
  let v161 := (← load 1408) ^^^ v155
  let v162 := ((v160 ^^^ 3749705727) + 2 * v160 + 545261569) &&& (v161 ^^^ 1073741824)
  store 600 (v152 <<< 16)
  let v163 := (← load 536) ^^^ 254
  store 872 (v154 <<< 16)
  let v164 := ((v151 - ((2 * v151) &&& 3075066)) <<< 8 + 393608448) ^^^ 393608448
  let v165 ← t4 ctx 14672 (v163 ^^^ 0)
  store 616 v165
  let v166 := ((← load 720) >>> 16) &&& 0xFFFF
  store 72 ((((← load 72) >>> 24) &&& 0xFF) ^^^ 17)
  let v167 := v165 ^^^ v121
  store 824 (((v158 >>> 24) &&& 0xFF) ^^^ 30)
  let v168 := v157 ^^^ 312978702
  store 80 ((← load 80) >>> 16)
  store 944 (((← load 144) >>> 16) &&& 0xFFFF)
  let v169 := v162 == (2 * v162) &&& 1207959552
  let mut v170 := (v160 ^^^ 3749705727) + 2 * v160 + 667545512
  v170 := if !v169 then -422977626 - ((v160 ^^^ 3749705727) + 2 * v160) else v170
  store 640 v159
  store 536 (v159 &&& 0xFF)
  store 912 ((v159 >>> 8) &&& 0xFF)
  let v171 := ((v161 ^^^ 1134230491) + v170 + 1107463079
      - ((2 * ((v161 ^^^ 1134230491) + v170) - 244567886) &&& 2459494044)) ^^^ (← load 616)
      ^^^ (v168 - ((2 * v168) &&& 365457340) + 182728670)
  store 720 ((((v161 ^^^ 219) + v170 - 89 - ((2 * ((v161 ^^^ 219) + v170) - 78) &&& 156))
      ^^^ ((← load 616) &&& 0xFF) ^^^ (v168 - ((2 * v168) &&& 188) - 34)) &&& 0xFF)
  store 664 v167
  store 616 ((v167 >>> 8) &&& 0xFF)
  let v172 ← load 144
  let v173 := (← t4 ctx 18080 (((v171 >>> 8) &&& 0xFF) ^^^ 138))
      ^^^ (← t4 ctx 19136 ((((← load 816) >>> 24) &&& 0xFF) ^^^ 4))
      ^^^ (← t4 ctx 12272 ((v166 &&& 0xFF) ^^^ 245)) ^^^ (← t4 ctx 14672 ((v172 &&& 0xFF) ^^^ 58))
  store 816 ((v172 >>> 8) &&& 0xFF)
  let v174 := (← ctxb ctx (0x2ee0 + ((← load 904) &&& 0xFF).toNat)) ^^^ 77
  let v175 := ((v164 - ((2 * v164) &&& 3446109184) + 1723054725) ^^^ 1723054725)
      ||| ((v174 - ((2 * v174) &&& 4294967278) + 259429367) ^^^ 259429367)
  let v176 := (← load 752) ^^^ (v175 - ((2 * v175) &&& 2753413102) + 1376706551)
  store 752 v176
  store 960 (v176 &&& 0xFF)
  store 680 v176
  store 952 ((v176 >>> 8) &&& 0xFF)
  store 144 ((← t4 ctx 18080 ((← load 728) ^^^ 23)) ^^^ (← load 1576)
      ^^^ (← t4 ctx 19136 ((← load 824) ^^^ 0)))
  let cp12 := #v[(← load 72), (← load 592), (← load 656)]
  let v177 := (← ctxb ctx (0x2ee0 + ((← load 1784) &&& 0xFF).toNat)) ^^^ 77
  let v178 := ((← load 872) + 59244544) ^^^ 59244544
  let v179 := ((v177 - ((2 * v177) &&& 4294967188)) <<< 8 - 1341797888) ^^^ 2953169408
  let v180 := ((v178 - ((2 * v178) &&& 1591607296) + 795809301) ^^^ 795809301)
      ||| ((v179 - ((2 * v179) &&& 2479458304) + 1239729366) ^^^ 1239729366)
  let v181 := (← ctxb ctx (0x2ee0 + ((← load 1168) &&& 0xFF).toNat)) ^^^ 77
  let v182 := ((v180 - ((2 * v180) &&& 2028340504) + 1014170252) ^^^ 1014170252)
      ||| ((v181 - ((2 * v181) &&& 4294967282) + 1970660601) ^^^ 1970660601)
  let v183 := ((v182 - ((2 * v182) &&& 11689266)) <<< 8 - 651257600) ^^^ 3643709696
  let v184 := v183 - ((2 * v183) &&& 2190326784) + 1095163549
  let v185 := (← ctxb ctx (0x2ee0 + ((← load 1064) &&& 0xFF).toNat)) ^^^ 77
  let v186 := (v184 ^^^ 1095163549)
      ||| ((v185 - ((2 * v185) &&& 4294967192) + 1368606412) ^^^ 1368606412)
  let v187 := (v186 - ((2 * v186) &&& 784626588) + 392313294) ^^^ v173
  let v188 := (← t4 ctx 19136 (((v171 >>> 24) &&& 0xFF) ^^^ 48))
      ^^^ (← t4 ctx 12272 (((← load 944) &&& 0xFF) ^^^ 221)) ^^^ (← load 1328)
      ^^^ (← t4 ctx 18080 ((← load 792) ^^^ 214))
  store 592 v187
  store 72 ((v187 >>> 8) &&& 0xFF)
  store 656 v187
  let v189 := (← t4 ctx 14672 ((← load 648) ^^^ 220)) ^^^ v188
  store 648 (v189 &&& 0xFF)
  store 728 ((v189 >>> 8) &&& 0xFF)
  return { cp12, v171, v187, v189 }

end Temari.Round2

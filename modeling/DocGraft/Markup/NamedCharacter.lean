import DocGraft.Text.Basic

/-!
# Named characters

Page text can write a character, or a character with one that combines with it, by a name between
an ampersand and a semicolon. The names are those of HTML 5. Some of them, which are older than
the rest, do not need the semicolon.

The tables list the names in the order of their code points. A block has the first code point and
then the names of this one and the next ones, with a blank after each code point. Names of one
code point stand with `=` between them, and a code point may have none.
-/

namespace DocGraft.Markup

/-- The names that are understood without a semicolon. -/
def bareNames : List (Nat × String) :=
  [(34,"QUOT=quot    AMP=amp"),(60,"LT=lt  GT=gt"),
   (160,"nbsp iexcl cent pound curren yen brvbar sect uml COPY=copy ordf laquo not shy REG=reg"),
   (175,"macr deg plusmn sup2 sup3 acute micro para middot cedil sup1 ordm raquo frac14 frac12"),
   (190,"frac34 iquest Agrave Aacute Acirc Atilde Auml Aring AElig Ccedil Egrave Eacute Ecirc"),
   (203,"Euml Igrave Iacute Icirc Iuml ETH Ntilde Ograve Oacute Ocirc Otilde Ouml times Oslash"),
   (217,"Ugrave Uacute Ucirc Uuml Yacute THORN szlig agrave aacute acirc atilde auml aring aelig"),
   (231,"ccedil egrave eacute ecirc euml igrave iacute icirc iuml eth ntilde ograve oacute ocirc"),
   (245,"otilde ouml divide oslash ugrave uacute ucirc uuml yacute thorn yuml")]

/-- The names that need a semicolon and stand for two code points, by the second one. -/
def pairNames : List (Nat × List (Nat × String)) :=
  [(824,[(8605,"nrarrw"),(8706,"npart"),(8770,"nesim=NotEqualTilde"),
    (8779,"napid   nbump=NotHumpDownHump nbumpe=NotHumpEqual nedot"),
    (8806,"nlE=nleqq ngE=ngeqq=NotGreaterFullEqual   nLtv=NotLessLess"),
    (8811,"nGtv=NotGreaterGreater"),(8831,"NotSucceedsTilde"),
    (8847,"NotSquareSubset NotSquareSuperset"),(8920,"nLl nGg"),(8949,"notindot    notinE"),
    (10547,"nrarrc"),(10703,"NotLeftTriangleBar NotRightTriangleBar"),
    (10861,"ncongdot   napE"),
    (10877,"nleqslant=nles=NotLessSlantEqual ngeqslant=nges=NotGreaterSlantEqual"),
    (10913,"NotNestedLessLess NotNestedGreaterGreater"),
    (10927,"NotPrecedesEqual=npre=npreceq NotSucceedsEqual=nsce=nsucceq"),
    (10949,"nsubE=nsubseteqq nsupE=nsupseteqq")]),
   (65024,[(8745,"caps cups"),(8808,"lvertneqq=lvnE gvertneqq=gvnE"),
    (8842,"varsubsetneq=vsubne varsupsetneq=vsupne"),(8851,"sqcaps sqcups"),
    (8922,"lesg gesl"),(10924,"smtes lates"),
    (10955,"varsubsetneqq=vsubnE varsupsetneqq=vsupnE")]),
   (8402,[(60,"nvlt  nvgt"),(8736,"nang"),(8764,"nvsim"),(8781,"nvap"),
    (8804,"nvle nvge     nLt nGt"),
    (8834,"NotSubset=nsubset=vnsub NotSuperset=nsupset=vnsup"),(8884,"nvltrie nvrtrie")]),
   (8421,[(61,"bne"),(8801,"bnequiv"),(11005,"nparsl")]),
   (8202,[(8287,"ThickSpace")]),
   (819,[(8766,"acE")]),
   (106,[(102,"fjlig")]),
   (817,[(8765,"race")])]

/-- The names that need a semicolon and stand for one code point. -/
def singleNames : List (Nat × String) :=
  [(9,"Tab NewLine"),
   (33,"excl  num dollar percnt  apos lpar rpar ast=midast plus comma  period sol"),
   (58,"colon semi  equals  quest commat"),
   (91,"lbrack=lsqb bsol rbrack=rsqb Hat lowbar=UnderBar DiacriticalGrave=grave"),
   (123,"lbrace=lcub verbar=vert=VerticalLine rbrace=rcub"),(160,"NonBreakingSpace"),
   (168,"die=Dot=DoubleDot      circledR strns  PlusMinus=pm   DiacriticalAcute"),
   (183,"CenterDot=centerdot Cedilla     half"),(197,"angst"),(247,"div"),
   (256,"Amacr amacr Abreve abreve Aogon aogon Cacute cacute Ccirc ccirc Cdot cdot Ccaron ccaron"),
   (270,"Dcaron dcaron Dstrok dstrok Emacr emacr   Edot edot Eogon eogon Ecaron ecaron Gcirc"),
   (285,"gcirc Gbreve gbreve Gdot gdot Gcedil  Hcirc hcirc Hstrok hstrok Itilde itilde Imacr"),
   (299,"imacr   Iogon iogon Idot imath=inodot IJlig ijlig Jcirc jcirc Kcedil kcedil kgreen"),
   (313,"Lacute lacute Lcedil lcedil Lcaron lcaron Lmidot lmidot Lstrok lstrok Nacute nacute"),
   (325,"Ncedil ncedil Ncaron ncaron napos ENG eng Omacr omacr   Odblac odblac OElig oelig Racute"),
   (341,"racute Rcedil rcedil Rcaron rcaron Sacute sacute Scirc scirc Scedil scedil Scaron scaron"),
   (354,"Tcedil tcedil Tcaron tcaron Tstrok tstrok Utilde utilde Umacr umacr Ubreve ubreve Uring"),
   (367,"uring Udblac udblac Uogon uogon Wcirc wcirc Ycirc ycirc Yuml Zacute zacute Zdot zdot"),
   (381,"Zcaron zcaron"),(402,"fnof"),(437,"imped"),(501,"gacute"),(567,"jmath"),
   (710,"circ caron=Hacek"),(728,"Breve=breve DiacriticalDot=dot ring ogon DiacriticalTilde=tilde"),
   (733,"dblac=DiacriticalDoubleAcute"),(785,"DownBreve"),
   (913,"Alpha Beta Gamma Delta Epsilon Zeta Eta Theta Iota Kappa Lambda Mu Nu Xi Omicron Pi Rho"),
   (931,"Sigma Tau Upsilon Phi Chi Psi ohm=Omega"),
   (945,"alpha beta gamma delta epsi=epsilon zeta eta theta iota kappa lambda mu nu xi omicron pi"),
   (961,"rho sigmaf=sigmav=varsigma sigma tau upsi=upsilon phi chi psi omega"),
   (977,"thetasym=thetav=vartheta Upsi=upsih   phiv=straightphi=varphi piv=varpi      Gammad"),
   (989,"digamma=gammad"),
   (1008,"kappav=varkappa rhov=varrho    epsiv=straightepsilon=varepsilon backepsilon=bepsi"),
   (1025,"IOcy DJcy GJcy Jukcy DScy Iukcy YIcy Jsercy LJcy NJcy TSHcy KJcy  Ubrcy DZcy Acy Bcy"),
   (1042,"Vcy Gcy Dcy IEcy ZHcy Zcy Icy Jcy Kcy Lcy Mcy Ncy Ocy Pcy Rcy Scy Tcy Ucy Fcy KHcy TScy"),
   (1063,"CHcy SHcy SHCHcy HARDcy Ycy SOFTcy Ecy YUcy YAcy acy bcy vcy gcy dcy iecy zhcy zcy icy"),
   (1081,"jcy kcy lcy mcy ncy ocy pcy rcy scy tcy ucy fcy khcy tscy chcy shcy shchcy hardcy ycy"),
   (1100,"softcy ecy yucy yacy  iocy djcy gjcy jukcy dscy iukcy yicy jsercy ljcy njcy tshcy kjcy"),
   (1118,"ubrcy dzcy"),
   (8194,"ensp emsp emsp13 emsp14  numsp puncsp thinsp=ThinSpace hairsp=VeryThinSpace"),
   (8203,"NegativeMediumSpace=NegativeThickSpace=NegativeThinSpace"),
   (8203,"NegativeVeryThinSpace=ZeroWidthSpace"),
   (8204,"zwnj zwj lrm rlm dash=hyphen   ndash mdash horbar Verbar=Vert  lsquo=OpenCurlyQuote"),
   (8217,"CloseCurlyQuote=rsquo=rsquor lsquor=sbquo  ldquo=OpenCurlyDoubleQuote"),
   (8221,"CloseCurlyDoubleQuote=rdquo=rdquor bdquo=ldquor  dagger Dagger=ddagger bull=bullet"),
   (8229,"nldr hellip=mldr"),
   (8240,"permil pertenk prime Prime tprime backprime=bprime    lsaquo rsaquo    oline=OverBar"),
   (8257,"caret  hybull frasl"),(8271,"bsemi"),(8279,"qprime"),
   (8287,"MediumSpace NoBreak af=ApplyFunction InvisibleTimes=it ic=InvisibleComma"),(8364,"euro"),
   (8411,"tdot=TripleDot DotDot"),
   (8450,"complexes=Copf   incare     gscr hamilt=HilbertSpace=Hscr Hfr=Poincareplane"),
   (8461,"Hopf=quaternions planckh hbar=hslash=planck=plankv imagline=Iscr Ifr=Im=image=imagpart"),
   (8466,"lagran=Laplacetrf=Lscr ell  naturals=Nopf numero copysr weierp=wp Popf=primes"),
   (8474,"Qopf=rationals realine=Rscr Re=real=realpart=Rfr reals=Ropf rx    TRADE=trade"),
   (8484,"integers=Zopf   mho zeetrf=Zfr iiota   bernou=Bernoullis=Bscr Cayleys=Cfr  escr"),
   (8496,"Escr=expectation Fouriertrf=Fscr  Mellintrf=Mscr=phmmat order=orderof=oscr"),
   (8501,"alefsym=aleph beth gimel daleth"),
   (8517,"CapitalDifferentialD=DD dd=DifferentialD ee=ExponentialE=exponentiale ii=ImaginaryI"),
   (8531,"frac13 frac23 frac15 frac25 frac35 frac45 frac16 frac56 frac18 frac38 frac58 frac78"),
   (8592,"larr=LeftArrow=leftarrow=ShortLeftArrow=slarr ShortUpArrow=uarr=UpArrow=uparrow"),
   (8594,"rarr=RightArrow=rightarrow=ShortRightArrow=srarr"),
   (8595,"darr=DownArrow=downarrow=ShortDownArrow harr=LeftRightArrow=leftrightarrow"),
   (8597,"UpDownArrow=updownarrow=varr nwarr=nwarrow=UpperLeftArrow nearr=nearrow=UpperRightArrow"),
   (8600,"LowerRightArrow=searr=searrow LowerLeftArrow=swarr=swarrow nlarr=nleftarrow"),
   (8603,"nrarr=nrightarrow  rarrw=rightsquigarrow Larr=twoheadleftarrow Uarr"),
   (8608,"Rarr=twoheadrightarrow Darr larrtl=leftarrowtail rarrtl=rightarrowtail"),
   (8612,"LeftTeeArrow=mapstoleft mapstoup=UpTeeArrow map=mapsto=RightTeeArrow"),
   (8615,"DownTeeArrow=mapstodown  hookleftarrow=larrhk hookrightarrow=rarrhk"),
   (8619,"larrlp=looparrowleft looparrowright=rarrlp harrw=leftrightsquigarrow"),
   (8622,"nharr=nleftrightarrow  Lsh=lsh Rsh=rsh ldsh rdsh  crarr cularr=curvearrowleft"),
   (8631,"curarr=curvearrowright   circlearrowleft=olarr circlearrowright=orarr"),
   (8636,"leftharpoonup=LeftVector=lharu DownLeftVector=leftharpoondown=lhard"),
   (8638,"RightUpVector=uharr=upharpoonright LeftUpVector=uharl=upharpoonleft"),
   (8640,"rharu=rightharpoonup=RightVector DownRightVector=rhard=rightharpoondown"),
   (8642,"dharr=downharpoonright=RightDownVector dharl=downharpoonleft=LeftDownVector"),
   (8644,"RightArrowLeftArrow=rightleftarrows=rlarr udarr=UpArrowDownArrow"),
   (8646,"LeftArrowRightArrow=leftrightarrows=lrarr leftleftarrows=llarr upuparrows=uuarr"),
   (8649,"rightrightarrows=rrarr ddarr=downdownarrows leftrightharpoons=lrhar=ReverseEquilibrium"),
   (8652,"Equilibrium=rightleftharpoons=rlhar nlArr=nLeftarrow nhArr=nLeftrightarrow"),
   (8655,"nrArr=nRightarrow DoubleLeftArrow=lArr=Leftarrow DoubleUpArrow=uArr=Uparrow"),
   (8658,"DoubleRightArrow=Implies=rArr=Rightarrow dArr=DoubleDownArrow=Downarrow"),
   (8660,"DoubleLeftRightArrow=hArr=iff=Leftrightarrow DoubleUpDownArrow=Updownarrow=vArr nwArr"),
   (8663,"neArr seArr swArr lAarr=Lleftarrow rAarr=Rrightarrow  zigrarr"),
   (8676,"larrb=LeftArrowBar rarrb=RightArrowBar"),(8693,"DownArrowUpArrow=duarr"),
   (8701,"loarr roarr hoarr ForAll=forall comp=complement part=PartialD exist=Exists"),
   (8708,"nexist=nexists=NotExists empty=emptyset=emptyv=varnothing  Del=nabla"),
   (8712,"Element=in=isin=isinv NotElement=notin=notinva  ni=niv=ReverseElement=SuchThat"),
   (8716,"notni=notniva=NotReverseElement   prod=Product coprod=Coproduct Sum=sum minus"),
   (8723,"MinusPlus=mnplus=mp dotplus=plusdo  Backslash=setminus=setmn=smallsetminus=ssetmn"),
   (8727,"lowast compfn=SmallCircle  radic=Sqrt   prop=Proportional=propto=varpropto=vprop infin"),
   (8735,"angrt ang=angle angmsd=measuredangle angsph mid=shortmid=smid=VerticalBar"),
   (8740,"nmid=NotVerticalBar=nshortmid=nsmid DoubleVerticalBar=par=parallel=shortparallel=spar"),
   (8742,"NotDoubleVerticalBar=npar=nparallel=nshortparallel=nspar and=wedge or=vee cap cup"),
   (8747,"int=Integral Int iiint=tint conint=ContourIntegral=oint Conint=DoubleContourIntegral"),
   (8752,"Cconint cwint ClockwiseContourIntegral=cwconint"),
   (8755,"awconint=CounterClockwiseContourIntegral there4=Therefore=therefore"),
   (8757,"becaus=Because=because ratio Colon=Proportion dotminus=minusd  mDDot homtht"),
   (8764,"sim=thicksim=thksim=Tilde backsim=bsim ac=mstpos acd VerticalTilde=wr=wreath"),
   (8769,"NotTilde=nsim eqsim=EqualTilde=esim sime=simeq=TildeEqual NotTildeEqual=nsime=nsimeq"),
   (8773,"cong=TildeFullEqual simne ncong=NotTildeFullEqual"),
   (8776,"ap=approx=asymp=thickapprox=thkap=TildeTilde nap=napprox=NotTildeTilde ape=approxeq"),
   (8779,"apid backcong=bcong asympeq=CupCap bump=Bumpeq=HumpDownHump bumpe=bumpeq=HumpEqual"),
   (8784,"doteq=DotEqual=esdot doteqdot=eDot efDot=fallingdotseq erDot=risingdotseq"),
   (8788,"Assign=colone=coloneq ecolon=eqcolon ecir=eqcirc circeq=cire  wedgeq veeeq"),
   (8796,"triangleq=trie   equest=questeq ne=NotEqual Congruent=equiv nequiv=NotCongruent  le=leq"),
   (8805,"ge=geq=GreaterEqual lE=leqq=LessFullEqual gE=geqq=GreaterFullEqual lnE=lneqq gnE=gneqq"),
   (8810,"ll=Lt=NestedLessLess gg=Gt=NestedGreaterGreater between=twixt NotCupCap"),
   (8814,"nless=nlt=NotLess ngt=ngtr=NotGreater nle=nleq=NotLessEqual nge=ngeq=NotGreaterEqual"),
   (8818,"lesssim=LessTilde=lsim GreaterTilde=gsim=gtrsim nlsim=NotLessTilde"),
   (8821,"ngsim=NotGreaterTilde LessGreater=lessgtr=lg gl=GreaterLess=gtrless NotLessGreater=ntlg"),
   (8825,"NotGreaterLess=ntgl pr=prec=Precedes sc=succ=Succeeds"),
   (8828,"prcue=preccurlyeq=PrecedesSlantEqual sccue=succcurlyeq=SucceedsSlantEqual"),
   (8830,"PrecedesTilde=precsim=prsim scsim=SucceedsTilde=succsim NotPrecedes=npr=nprec"),
   (8833,"NotSucceeds=nsc=nsucc sub=subset sup=Superset=supset nsub nsup"),
   (8838,"sube=subseteq=SubsetEqual supe=SupersetEqual=supseteq NotSubsetEqual=nsube=nsubseteq"),
   (8841,"NotSupersetEqual=nsupe=nsupseteq subne=subsetneq supne=supsetneq  cupdot"),
   (8846,"UnionPlus=uplus sqsub=sqsubset=SquareSubset sqsup=sqsupset=SquareSuperset"),
   (8849,"sqsube=sqsubseteq=SquareSubsetEqual sqsupe=sqsupseteq=SquareSupersetEqual"),
   (8851,"sqcap=SquareIntersection sqcup=SquareUnion CirclePlus=oplus CircleMinus=ominus"),
   (8855,"CircleTimes=otimes osol CircleDot=odot circledcirc=ocir circledast=oast"),
   (8861,"circleddash=odash boxplus=plusb boxminus=minusb boxtimes=timesb dotsquare=sdotb"),
   (8866,"RightTee=vdash dashv=LeftTee DownTee=top bot=bottom=perp=UpTee  models"),
   (8872,"DoubleRightTee=vDash Vdash Vvdash VDash nvdash nvDash nVdash nVDash prurel"),
   (8882,"LeftTriangle=vartriangleleft=vltri RightTriangle=vartriangleright=vrtri"),
   (8884,"LeftTriangleEqual=ltrie=trianglelefteq RightTriangleEqual=rtrie=trianglerighteq origof"),
   (8887,"imof multimap=mumap hercon intcal=intercal veebar  barvee angrtvb lrtri"),
   (8896,"bigwedge=Wedge=xwedge bigvee=Vee=xvee bigcap=Intersection=xcap bigcup=Union=xcup"),
   (8900,"diam=Diamond=diamond sdot sstarf=Star divideontimes=divonx bowtie ltimes rtimes"),
   (8907,"leftthreetimes=lthree rightthreetimes=rthree backsimeq=bsime curlyvee=cuvee"),
   (8911,"curlywedge=cuwed Sub=Subset Sup=Supset Cap Cup fork=pitchfork epar lessdot=ltdot"),
   (8919,"gtdot=gtrdot Ll Gg=ggg leg=lesseqgtr=LessEqualGreater gel=GreaterEqualLess=gtreqless"),
   (8926,"cuepr=curlyeqprec cuesc=curlyeqsucc NotPrecedesSlantEqual=nprcue"),
   (8929,"NotSucceedsSlantEqual=nsccue NotSquareSubsetEqual=nsqsube"),
   (8931,"NotSquareSupersetEqual=nsqsupe   lnsim gnsim precnsim=prnsim scnsim=succnsim"),
   (8938,"nltri=NotLeftTriangle=ntriangleleft NotRightTriangle=nrtri=ntriangleright"),
   (8940,"nltrie=NotLeftTriangleEqual=ntrianglelefteq"),
   (8941,"NotRightTriangleEqual=nrtrie=ntrianglerighteq vellip ctdot utdot dtdot disin isinsv"),
   (8948,"isins isindot notinvc notinvb  isinE nisd xnis nis notnivc notnivb"),
   (8965,"barwed=barwedge Barwed=doublebarwedge  lceil=LeftCeiling rceil=RightCeiling"),
   (8970,"LeftFloor=lfloor rfloor=RightFloor drcrop dlcrop urcrop ulcrop bnot  profline profsurf"),
   (8981,"telrec target      ulcorn=ulcorner urcorn=urcorner dlcorn=llcorner drcorn=lrcorner"),
   (8994,"frown=sfrown smile=ssmile"),(9005,"cylcty profalar"),(9014,"topbot"),
   (9021,"ovbar  solbar"),(9084,"angzarr"),
   (9136,"lmoust=lmoustache rmoust=rmoustache   OverBracket=tbrk bbrk=UnderBracket bbrktbrk"),
   (9180,"OverParenthesis UnderParenthesis OverBrace UnderBrace   trpezium     elinters"),
   (9251,"blank"),(9416,"circledS=oS"),(9472,"boxh=HorizontalLine  boxv"),
   (9484,"boxdr    boxdl    boxur    boxul    boxvr"),(9508,"boxvl"),(9516,"boxhd"),(9524,"boxhu"),
   (9532,"boxvh"),
   (9552,"boxH boxV boxdR boxDr boxDR boxdL boxDl boxDL boxuR boxUr boxUR boxuL boxUl boxUL boxvR"),
   (9567,"boxVr boxVR boxvL boxVl boxVL boxHd boxhD boxHD boxHu boxhU boxHU boxvH boxVh boxVH"),
   (9600,"uhblk    lhblk    block"),(9617,"blk14 blk12 blk34"),(9633,"squ=Square=square"),
   (9642,"blacksquare=FilledVerySmallSquare=squarf=squf EmptyVerySmallSquare  rect marker   fltns"),
   (9651,"bigtriangleup=xutri blacktriangle=utrif triangle=utri   blacktriangleright=rtrif"),
   (9657,"rtri=triangleright    bigtriangledown=xdtri blacktriangledown=dtrif dtri=triangledown"),
   (9666,"blacktriangleleft=ltrif ltri=triangleleft"),(9674,"loz=lozenge cir"),
   (9708,"tridot   bigcirc=xcirc"),(9720,"ultri urtri lltri EmptySmallSquare FilledSmallSquare"),
   (9733,"bigstar=starf star"),(9742,"phone"),(9792,"female  male"),
   (9824,"spades=spadesuit   clubs=clubsuit  hearts=heartsuit diamondsuit=diams    sung   flat"),
   (9838,"natur=natural sharp"),(10003,"check=checkmark    cross"),(10016,"malt=maltese"),
   (10038,"sext"),(10072,"VerticalSeparator"),(10098,"lbbrk rbbrk"),(10184,"bsolhsub suphsol"),
   (10214,"LeftDoubleBracket=lobrk RightDoubleBracket=robrk lang=langle=LeftAngleBracket"),
   (10217,"rang=rangle=RightAngleBracket Lang Rang loang roang"),
   (10229,"LongLeftArrow=longleftarrow=xlarr LongRightArrow=longrightarrow=xrarr"),
   (10231,"LongLeftRightArrow=longleftrightarrow=xharr DoubleLongLeftArrow=Longleftarrow=xlArr"),
   (10233,"DoubleLongRightArrow=Longrightarrow=xrArr"),
   (10234,"DoubleLongLeftRightArrow=Longleftrightarrow=xhArr  longmapsto=xmap   dzigrarr"),
   (10498,"nvlArr nvrArr nvHarr Map"),
   (10508,"lbarr bkarow=rbarr lBarr dbkarow=rBarr drbkarow=RBarr DDotrahd UpArrowBar DownArrowBar"),
   (10518,"Rarrtl   latail ratail lAtail rAtail larrfs rarrfs larrbfs rarrbfs   nwarhk nearhk"),
   (10533,"hksearow=searhk hkswarow=swarhk nwnear nesear=toea seswar=tosa swnwar"),
   (10547,"rarrc  cudarrr ldca rdca cudarrl larrpl   curarrm cularrp"),
   (10565,"rarrpl   harrcir Uarrocir lurdshar ldrushar   LeftRightVector RightUpDownVector"),
   (10576,"DownLeftRightVector LeftUpDownVector LeftVectorBar RightVectorBar RightUpVectorBar"),
   (10581,"RightDownVectorBar DownLeftVectorBar DownRightVectorBar LeftUpVectorBar"),
   (10585,"LeftDownVectorBar LeftTeeVector RightTeeVector RightUpTeeVector RightDownTeeVector"),
   (10590,"DownLeftTeeVector DownRightTeeVector LeftUpTeeVector LeftDownTeeVector lHar uHar rHar"),
   (10597,"dHar luruhar ldrdhar ruluhar rdldhar lharul llhard rharul lrhard udhar=UpEquilibrium"),
   (10607,"duhar=ReverseUpEquilibrium RoundImplies erarr simrarr larrsim rarrsim rarrap ltlarr"),
   (10616,"gtrarr subrarr  suplarr lfisht rfisht ufisht dfisht      lopar ropar     lbrke rbrke"),
   (10637,"lbrkslu rbrksld lbrksld rbrkslu langd rangd lparlt rpargt gtlPar ltrPar    vzigzag"),
   (10652,"vangrt angrtvbd"),
   (10660,"ange range dwangle uwangle angmsdaa angmsdab angmsdac angmsdad angmsdae angmsdaf"),
   (10670,"angmsdag angmsdah bemptyv demptyv cemptyv raemptyv laemptyv ohbar omid opar  operp"),
   (10683,"olcross odsold  olcir ofcir olt ogt cirscir cirE solb bsolb    boxbox    trisb"),
   (10702,"rtriltri LeftTriangleBar RightTriangleBar"),
   (10716,"iinfin infintie nvinfin     eparsl smeparsl eqvparsl      blacklozenge=lozf"),
   (10740,"RuleDelayed  dsol"),
   (10752,"bigodot=xodot bigoplus=xoplus bigotimes=xotime  biguplus=xuplus  bigsqcup=xsqcup"),
   (10764,"iiiint=qint fpartint   cirfnint awint rppolint scpolint npolint pointint quatint"),
   (10775,"intlarhk"),
   (10786,"pluscir plusacir simplus plusdu plussim plustwo  mcomma minusdu   loplus roplus Cross"),
   (10800,"timesd timesbar  smashp lotimes rotimes otimesas Otimes odiv triplus triminus tritime"),
   (10812,"intprod=iprod   amalg capdot  ncup ncap capand cupor cupcap capcup cupbrcap capbrcup"),
   (10826,"cupcup capcap ccups ccaps   ccupssm   And Or andand oror orslope andslope  andv orv"),
   (10844,"andd ord  wedbar"),
   (10854,"sdote    simdot   congdot easter apacir apE eplus pluse Esim Colone Equal"),
   (10871,"ddotseq=eDDot equivDD ltcir gtcir ltquest gtquest leqslant=les=LessSlantEqual"),
   (10878,"geqslant=ges=GreaterSlantEqual lesdot gesdot lesdoto gesdoto lesdotor gesdotol"),
   (10885,"lap=lessapprox gap=gtrapprox lne=lneq gne=gneq lnap=lnapprox gnap=gnapprox"),
   (10891,"lEg=lesseqqgtr gEl=gtreqqless lsime gsime lsimg gsiml lgE glE lesges gesles"),
   (10901,"els=eqslantless egs=eqslantgtr elsdot egsdot el eg   siml simg simlE simgE LessLess"),
   (10914,"GreaterGreater  glj gla ltcc gtcc lescc gescc smt lat smte late bumpE"),
   (10927,"pre=PrecedesEqual=preceq sce=SucceedsEqual=succeq   prE scE precneqq=prnE"),
   (10934,"scnE=succneqq prap=precapprox scap=succapprox precnapprox=prnap scnap=succnapprox Pr"),
   (10940,"Sc subdot supdot subplus supplus submult supmult subedot supedot subE=subseteqq"),
   (10950,"supE=supseteqq subsim supsim   subnE=subsetneqq supnE=supsetneqq   csub csup csube"),
   (10962,"csupe subsup supsub subsub supsup suphsub supdsub forkv topfork mlcp"),
   (10980,"Dashv=DoubleLeftTee  Vdashl Barv vBar vBarv  Vbar Not bNot rnmid cirmid midcir topcir"),
   (10994,"nhpar parsim"),(11005,"parsl"),(64256,"fflig filig fllig ffilig ffllig"),
   (119964,"Ascr  Cscr Dscr   Gscr   Jscr Kscr   Nscr Oscr Pscr Qscr  Sscr Tscr Uscr Vscr Wscr"),
   (119987,"Xscr Yscr Zscr ascr bscr cscr dscr  fscr  hscr iscr jscr kscr lscr mscr nscr  pscr"),
   (120006,"qscr rscr sscr tscr uscr vscr wscr xscr yscr zscr"),
   (120068,"Afr Bfr  Dfr Efr Ffr Gfr   Jfr Kfr Lfr Mfr Nfr Ofr Pfr Qfr  Sfr Tfr Ufr Vfr Wfr Xfr"),
   (120092,"Yfr  afr bfr cfr dfr efr ffr gfr hfr ifr jfr kfr lfr mfr nfr ofr pfr qfr rfr sfr tfr"),
   (120114,"ufr vfr wfr xfr yfr zfr Aopf Bopf  Dopf Eopf Fopf Gopf  Iopf Jopf Kopf Lopf Mopf"),
   (120134,"Oopf    Sopf Topf Uopf Vopf Wopf Xopf Yopf  aopf bopf copf dopf eopf fopf gopf hopf"),
   (120154,"iopf jopf kopf lopf mopf nopf oopf popf qopf ropf sopf topf uopf vopf wopf xopf yopf"),
   (120171,"zopf")]

/-! ### Looking names up -/

/-- The names in a block, each with its code point. -/
def namesIn (block : Nat × String) : List (Text × Nat) :=
  (Text.fields ' ' block.2.toList).zipIdx block.1 |>.flatMap fun (names, n) =>
    ((Text.fields '=' names).filter (· ≠ [])).map (·, n)

/-- The code point that a table has for a name. -/
def lookUp (table : List (Nat × String)) (name : Text) : Option Nat :=
  table.findSome? fun block => (namesIn block).lookup name

/-- The text for a name that does not need a semicolon. -/
def bareName? (name : Text) : Option Text :=
  (lookUp bareNames name).map fun n => [Char.ofNat n]

/-- The text for a name with a semicolon after it. -/
def closedName? (name : Text) : Option Text :=
  let single := (lookUp singleNames name).map fun n => [Char.ofNat n]
  let pair := pairNames.findSome? fun (m, table) =>
    (lookUp table name).map fun n => [Char.ofNat n, Char.ofNat m]
  (bareName? name).or (single.or pair)

end DocGraft.Markup
